import LuaScript.Lua

/-!
# Frames between operations

Between public operations the base belongs to the current frame, and as long as that is the first
frame, it has at least the slots that a new object starts with.  An exception out of a callback
leaves other frames above it, and these are left to whatever the next operations push.
-/

namespace LuaScript

open Stateful

/-- The frames between two operations. -/
structure LuaState.AtRest (st : LuaState) : Prop where
  /-- The base belongs to the current frame. -/
  base_eq : st.base = st.ci.base
  /-- The first frame has its slots. -/
  first : st.callers = [] → st.base = 1 ∧ 1 + luaMinstack ≤ st.ci.top

theorem LuaState.atRest_fresh (heap : Heap) : (LuaState.fresh heap).AtRest :=
  ⟨rfl, fun _ => ⟨rfl, le_rfl⟩⟩

/-- Operations keep the frames in order unless the process ends. -/
def restDiscipline : Discipline Abort LuaState where
  keeps st st' := st.AtRest → st'.AtRest
  leaves abort st st' := st.AtRest → abort.fatal = true ∨ st'.AtRest
  refl _ := id
  trans first second rest := second (first rest)
  leave first second rest := second (first rest)

section Rest

variable {α : Type} {st st' : LuaState}

theorem LuaState.AtRest.of_call (rest : st.AtRest) (same : st'.toCallState = st.toCallState) :
    st'.AtRest := by
  constructor
  · rw [congrArg CallState.base same, congrArg CallState.ci same]
    exact rest.base_eq
  · rw [congrArg CallState.base same, congrArg CallState.ci same,
      congrArg CallState.callers same]
    exact rest.first

theorem LuaState.AtRest.of_restored (rest : st.AtRest)
    (restored : st.toCallState.Restored st'.toCallState) (top_le : st.ci.top ≤ st'.ci.top) :
    st'.AtRest := by
  constructor
  · rw [restored.base, restored.ci]
    exact rest.base_eq
  · intro only
    obtain ⟨base, slots⟩ := rest.first (restored.callers ▸ only)
    exact ⟨restored.base.trans base, slots.trans top_le⟩

/-- When the first frame is the current one, no frame was added. -/
theorem LuaState.AtRest.of_frames (rest : st.AtRest) (frames : st.frames <:+ st'.frames)
    (base_eq : st'.base = st'.ci.base) : st'.AtRest := by
  refine ⟨base_eq, fun only => ?_⟩
  have same : st.frames = st'.frames := by
    apply frames.eq_of_length_le
    simp only [CallState.frames, only, List.length_cons, List.length_nil]
    omega
  obtain ⟨ci, callers⟩ := List.cons.inj same
  obtain ⟨base, slots⟩ := rest.first (callers.trans only)
  exact ⟨by rw [base_eq, ← ci, ← rest.base_eq, base], ci ▸ slots⟩

/-- What an error leaves is fatal or in order. -/
theorem Abort.Left.atRest {error : Abort} {floor : Nat} (left : error.Left floor st st')
    (rest : st.AtRest) : error.fatal = true ∨ st'.AtRest := by
  cases error with
  | jump status => exact .inl rfl
  | exception e =>
      have deeper : st.Deeper st' floor := left
      exact .inr (rest.of_frames deeper.frames deeper.base_eq)
  | exit => exact .inl rfl
  | undefined => exact .inl rfl

theorem obeys_of_leavesStack {computation : LuaM α}
    (leaves : st.base = st.ci.base → LeavesStack computation st) :
    ObeysAt restDiscipline computation st := by
  rcases ran : computation st with ⟨error | value, st'⟩
  · exact ends_of_error ran fun rest => ((leaves rest.base_eq).of_error ran).atRest rest
  · exact ends_of_ok ran fun rest => rest.of_call ((leaves rest.base_eq).of_ok ran).1

/-- Changes of the stack alone. -/
theorem obeys_modify_stack {update : LuaState → LuaState}
    (same : ∀ st, (update st).toCallState = st.toCallState) :
    Obeys restDiscipline (modify update) :=
  obeys_modify fun st rest => rest.of_call (same st)

theorem obeys_luaPush (value : Value) : Obeys restDiscipline (luaPush value) :=
  obeys_modify_stack fun _ => rfl

theorem obeys_luaPop (n : Nat) : Obeys restDiscipline (luaPop n) :=
  obeys_modify_stack fun _ => rfl

theorem obeys_exception (e : Exception) :
    Obeys restDiscipline (abort (.exception e) : LuaM α) :=
  obeys_abort fun _ rest => .inr rest

theorem obeys_undefined : Obeys restDiscipline (abort .undefined : LuaM α) :=
  obeys_abort fun _ _ => .inl rfl

theorem obeys_luaTolstring (libc : Libc) (idx : Int) :
    Obeys restDiscipline (luaTolstring libc idx) := by
  refine obeys_bind obeys_get fun st => ?_
  cases st.index2adr idx with
  | none => exact obeys_pure _
  | some position =>
      dsimp only
      split
      · exact obeys_pure _
      · exact obeys_bind (obeys_modify_stack fun _ => rfl) fun _ => obeys_pure _
      · exact obeys_pure _

theorem obeys_unpack (libc : Libc) (type : ArgType) (nparam : Nat) :
    Obeys restDiscipline (type.unpack libc nparam) := by
  refine obeys_bind obeys_get fun st => ?_
  cases type with
  | bool =>
      dsimp only
      split_ifs
      · exact obeys_pure _
      · exact obeys_exception _
  | int =>
      dsimp only
      split_ifs
      · exact obeys_pure _
      · exact obeys_exception _
  | string =>
      dsimp only
      split_ifs
      · refine obeys_bind (obeys_luaTolstring libc nparam) fun text => ?_
        cases text with
        | some s => exact obeys_pure _
        | none => exact obeys_undefined
      · exact obeys_exception _

end Rest

section Operations

variable (vm : Vm)

theorem obeys_exec (script : Bytes) : Obeys restDiscipline (exec vm script) := by
  intro st
  rcases ran : exec vm script st with ⟨error | value, st'⟩
  · refine ends_of_error ran fun rest => ?_
    obtain ⟨-, ⟨restored, top_le, -⟩ | ⟨-, -, frames, base_eq, -⟩⟩ :=
      (exec_spec vm script rest.base_eq).of_error ran
    · exact .inr (rest.of_restored restored top_le)
    · exact .inr (rest.of_frames frames base_eq)
  · refine ends_of_ok ran fun rest => ?_
    obtain ⟨restored, top_le, -⟩ := (exec_spec vm script rest.base_eq).of_ok ran
    exact rest.of_restored restored top_le

theorem obeys_luaGetglobal (s : Bytes) : Obeys restDiscipline (luaGetglobal vm s) := by
  refine obeys_bind obeys_get fun globals => obeys_bind (fun st => ?_) obeys_luaPush
  exact obeys_of_leavesStack (luaVGettable_spec vm _ _ _)

theorem obeys_luaSetglobal (s : Bytes) : Obeys restDiscipline (luaSetglobal vm s) := by
  refine obeys_bind obeys_get fun globals => obeys_bind (fun st => ?_) fun _ => obeys_luaPop 1
  exact obeys_of_leavesStack (luaVSettable_spec vm _ _ _ _)

theorem obeys_luaRegister (n : Bytes) (f : LuaFunc) :
    Obeys restDiscipline (luaRegister vm n f) := by
  intro st
  cases new : vm.luaFNewCclosure f st.heap with
  | some cl =>
      have stored : Obeys restDiscipline (luaPush (.function cl) >>= fun _ => luaSetglobal vm n) :=
        obeys_bind (obeys_luaPush _) fun _ => obeys_luaSetglobal vm n
      rw [ObeysAt, Ends, luaRegister_of_new vm new]
      exact stored st
  | none =>
      obtain ⟨error, thrown, fatal⟩ := luaRegister_of_full vm new n
      exact ends_of_error thrown fun _ => .inl fatal

theorem obeys_registerFunction (f : LuaFunc) : Obeys restDiscipline (registerFunction vm f) := by
  rw [registerFunction]
  split_ifs
  · refine obeys_bind (obeys_exec vm _) fun _ => ?_
    exact obeys_bind (obeys_luaRegister vm _ f) fun _ => obeys_exec vm _
  · exact obeys_luaRegister vm _ f

/-- Every public operation keeps the frames in order. -/
theorem obeys_perform (operation : Operation) :
    Obeys restDiscipline (operation.perform vm) := by
  cases operation with
  | exec script => exact obeys_bind (obeys_exec vm script) fun _ => obeys_pure _
  | getVariable type name =>
      refine obeys_bind (obeys_bind (obeys_luaGetglobal vm name) fun _ => ?_) fun _ => obeys_pure _
      refine obeys_bind obeys_get fun st => obeys_bind (obeys_unpack _ _ _) fun value => ?_
      exact obeys_bind (obeys_luaPop _) fun _ => obeys_pure _
  | setVariable name var =>
      refine obeys_bind ?_ fun _ => obeys_pure _
      exact obeys_bind (obeys_luaPush _) fun _ => obeys_luaSetglobal vm name
  | registerFunction f => exact obeys_bind (obeys_registerFunction vm f) fun _ => obeys_pure _

theorem perform_atRest (operation : Operation) {st : LuaState} (rest : st.AtRest)
    (continues : Continues Abort.fatal (operation.perform vm st).1) :
    (operation.perform vm st).2.AtRest := by
  have obeys := obeys_perform vm operation st
  rcases ran : operation.perform vm st with ⟨error | value, st'⟩
  · rw [ran] at continues
    rcases obeys.of_error ran rest with fatal | rest'
    · exact absurd fatal (by simp [continues error rfl])
    · exact rest'
  · exact obeys.of_ok ran rest

/-- Over every run of public operations, the frames are in order before each of them. -/
theorem visits_atRest (heap : Heap) (operations : List Operation) :
    ∀ visit ∈ visits (Operation.perform vm) Abort.fatal operations (LuaState.fresh heap),
      visit.before.AtRest ∧
        visit.operation.perform vm visit.before = (visit.outcome, visit.after) :=
  visits_invariant LuaState.AtRest (fun _ _ => True)
    (fun operation _ rest _ continues => perform_atRest vm operation rest continues)
    operations (LuaState.atRest_fresh heap) fun _ _ => trivial

end Operations

end LuaScript
