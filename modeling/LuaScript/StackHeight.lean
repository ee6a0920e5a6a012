import LuaScript.Lua

/-!
# The height of the stack

Every public operation is balanced under a condition on the state before it: a script must complete
without results, and `get_variable`, which pops everything, must find an empty stack and a value of
its type.  Everything else that returns or throws leaves values behind, or takes values away.
-/

namespace LuaScript

open Stateful

section Operations

variable (vm : Vm)

/-- A registered function throws while the operation runs. -/
def Operation.Unwinds : Operation → LuaState → Prop
  | .exec script, st => vm.Unwinds script st
  | .getVariable _ name, st => Throws (luaGetglobal vm name) st
  | .setVariable name var, st => Throws (LuaScript.setVariable vm name var) st
  | .registerFunction f, st =>
      if f.ns.length ≠ 0 then
        vm.Unwinds f.createNs st ∨
          ∃ st', LuaScript.exec vm f.createNs st = (.ok (), st') ∧
            (Throws (luaRegister vm (bytes "dummy") f) st' ∨
              ∃ st'', luaRegister vm (bytes "dummy") f st' = (.ok (), st'') ∧
                vm.Unwinds f.moveDummy st'')
      else Throws (luaRegister vm (cStr f.name) f) st

/-- The variable holds a value of the type. -/
def Vm.Holds (type : ArgType) (name : Bytes) (st : LuaState) : Prop :=
  ∃ value st', luaVGettable vm (.string (cStr name)) maxtagloop (.table st.heap.globals) st =
    (.ok value, st') ∧ (type.ofValue vm.libc value).isSome

/-- The scripts of a registration complete without results. -/
def Vm.Registers (f : LuaFunc) (st : LuaState) : Prop :=
  f.ns.length ≠ 0 → vm.Completes f.createNs st 0 ∧
    ∀ st' st'', exec vm f.createNs st = (.ok (), st') →
      luaRegister vm (bytes "dummy") f st' = (.ok (), st'') → vm.Completes f.moveDummy st'' 0

/-- The condition under which an operation that returns or throws is balanced. -/
def Operation.Balances : Operation → LuaState → Prop
  | .exec script, st => vm.Completes script st 0
  | .getVariable type name, st => st.gettop = 0 ∧ vm.Holds type name st
  | .setVariable _ _, _ => True
  | .registerFunction f, st => vm.Registers f st

/-- Frames outside every call: the base belongs to the frame and is part of the stack, and no error
handler is set. -/
structure LuaState.Outside (st : LuaState) : Prop where
  /-- The base of the state. -/
  base_eq : st.base = st.ci.base
  /-- The base is part of the stack. -/
  inside : st.base ≤ st.stack.length
  /-- There is no error handler. -/
  errorJmp : st.errorJmp = 0

/-- The call state is restored, and some number of values was added to the stack. -/
structure LuaState.Grows (st st' : LuaState) (added : Nat) : Prop where
  /-- Frames, counters and error handlers are the same. -/
  restored : st.toCallState.Restored st'.toCallState
  /-- The height grows. -/
  height : st'.stack.length = st.stack.length + added

variable {st st' st'' : LuaState}

theorem LuaState.Grows.outside {added : Nat} (grows : st.Grows st' added) (outside : st.Outside) :
    st'.Outside where
  base_eq := by rw [grows.restored.base, grows.restored.ci, outside.base_eq]
  inside := by
    rw [grows.restored.base, grows.height]
    exact outside.inside.trans (Nat.le_add_right _ _)
  errorJmp := grows.restored.errorJmp.trans outside.errorJmp

theorem LuaState.Grows.trans {added added' : Nat} (grows : st.Grows st' added)
    (grows' : st'.Grows st'' added') : st.Grows st'' (added + added') :=
  ⟨grows.restored.trans grows'.restored, by rw [grows'.height, grows.height, Nat.add_assoc]⟩

/-- The height is the same when nothing was added. -/
theorem LuaState.Grows.gettop_eq_iff {added : Nat} (grows : st.Grows st' added)
    (outside : st.Outside) : st'.gettop = st.gettop ↔ added = 0 := by
  have inside := outside.inside
  rw [LuaState.gettop, LuaState.gettop, grows.height, grows.restored.base]
  omega

/-- Outside every call, an error that is not a C++ exception is fatal. -/
theorem Abort.Left.fatal {error : Abort} {floor : Nat} (left : error.Left floor st st')
    (outside : st.Outside) (thrown : ¬error.IsException) : error.fatal = true := by
  cases error with
  | jump status => exact absurd outside.errorJmp left.2.2.ne'
  | exception e => exact absurd ⟨e, rfl⟩ thrown
  | exit => rfl
  | undefined => rfl

/-- A script adds its results, or one error value. -/
theorem exec_grows (script : Bytes) (outside : st.Outside) (quiet : ¬vm.Unwinds script st) :
    Ends (exec vm script) st
      (fun _ st' => ∃ added, st.Grows st' added ∧ (added = 0 ↔ vm.Completes script st 0))
      fun _ st' => st.Grows st' 1 ∧ ¬vm.Completes script st 0 := by
  apply (exec_spec vm script outside.base_eq).mono
  · rintro _ st' ⟨restored, -, n, inner, finishes, occupied, -, stack_eq⟩
    refine ⟨(inner.last n).length, ⟨restored, by rw [stack_eq, List.length_append]⟩, ?_⟩
    rw [List.length_eq_zero_iff, LuaState.last_eq_nil_iff occupied]
    constructor
    · rintro rfl
      exact finishes.completes
    · exact finishes.completes.unique
  · rintro error st' ⟨incomplete, ⟨restored, -, -, value, -, -, stack_eq⟩ | ⟨unwinds, -⟩⟩
    · exact ⟨⟨restored, by rw [stack_eq, List.length_append]; rfl⟩, incomplete 0⟩
    · exact absurd unwinds quiet

/-- Pushing a value and storing it in a variable adds nothing. -/
theorem luaPush_luaSetglobal_grows (value : Value) (name : Bytes) (outside : st.Outside)
    (quiet : ¬Throws (luaPush value >>= fun _ => luaSetglobal vm name) st) :
    Ends (luaPush value >>= fun _ => luaSetglobal vm name) st (fun _ st' => st.Grows st' 0)
      fun error _ => error.fatal = true := by
  let pushed : LuaState := (luaPush value st).2
  have width : pushed.stack.length = st.stack.length + 1 := List.length_append
  have pushed_outside : pushed.Outside :=
    ⟨outside.base_eq, width ▸ outside.inside.trans (Nat.le_succ _), outside.errorJmp⟩
  have stored : Ends (luaSetglobal vm name) pushed _ _ :=
    (luaSetglobal_spec vm name pushed_outside.base_eq).aborts_iff Abort.IsException
  refine (show Ends (luaSetglobal vm name) pushed _ _ from stored.mono ?_ ?_)
  · rintro _ st' ⟨-, call, stack_eq⟩
    refine ⟨.of_eq call, ?_⟩
    rw [stack_eq, List.length_take, width]
    omega
  · rintro error st' ⟨thrown, left⟩
    exact left.fatal pushed_outside (thrown.not.mp quiet)

theorem luaRegister_grows (f : LuaFunc) (name : Bytes) (outside : st.Outside)
    (quiet : ¬Throws (luaRegister vm name f) st) :
    Ends (luaRegister vm name f) st (fun _ st' => st.Grows st' 0)
      fun error _ => error.fatal = true := by
  cases new : vm.luaFNewCclosure f st.heap with
  | some cl =>
      have ran := luaRegister_of_new vm new name
      rw [Throws, Aborts, ran] at quiet
      rw [Ends, ran]
      exact luaPush_luaSetglobal_grows vm (.function cl) name outside quiet
  | none =>
      obtain ⟨error, thrown, fatal⟩ := luaRegister_of_full vm new name
      exact ends_of_error thrown fatal

/-- `get_variable` leaves an empty stack, or adds one value of another type. -/
theorem getVariable_height (type : ArgType) (name : Bytes) (outside : st.Outside)
    (quiet : ¬Throws (luaGetglobal vm name) st) :
    Ends (getVariable vm type name) st
      (fun _ st' => st.toCallState.Restored st'.toCallState ∧ st'.stack.length = st.base ∧
        vm.Holds type name st)
      fun error st' => error.fatal = true ∨ (st.Grows st' 1 ∧ ¬vm.Holds type name st) := by
  have found := luaVGettable_spec vm (.string (cStr name)) maxtagloop (.table st.heap.globals)
    outside.base_eq
  rcases read : luaVGettable vm (.string (cStr name)) maxtagloop (.table st.heap.globals) st with
    ⟨error | value, mid⟩
  · have failed : luaGetglobal vm name st = (.error error, mid) := by
      rw [luaGetglobal, get_bind, bind_of_error read]
    refine ends_of_error (bind_of_error failed) (.inl ?_)
    exact (found.of_error read).fatal outside ((aborts_of_error failed).not.mp quiet)
  · obtain ⟨call, stack_eq⟩ := found.of_ok read
    let pushed : LuaState := (luaPush value mid).2
    have pushed_eq : luaGetglobal vm name st = (.ok (), pushed) := by
      rw [luaGetglobal, get_bind, bind_of_ok read]
      rfl
    have restored : st.toCallState.Restored pushed.toCallState := .of_eq call
    have top : pushed.stack = st.stack ++ [value] := congrArg (· ++ [value]) stack_eq
    have inside : pushed.base ≤ st.stack.length := restored.base ▸ outside.inside
    have unpacked := type.unpack_top vm.libc pushed top inside
    rw [Ends, getVariable, bind_of_ok pushed_eq, get_bind]
    cases converted : type.ofValue vm.libc value with
    | some arg =>
        rw [converted] at unpacked
        rw [bind_of_ok unpacked]
        refine ⟨restored, ?_, value, mid, read, by rw [converted]; rfl⟩
        simp only [LuaState.gettop, top, List.length_take, List.length_append,
          List.length_singleton, restored.base]
        have := outside.inside
        omega
    | none =>
        rw [converted] at unpacked
        rw [bind_of_error unpacked]
        refine .inr ⟨⟨restored, by rw [top, List.length_append]; rfl⟩, ?_⟩
        rintro ⟨value', st', read', accepted⟩
        rw [read] at read'
        cases read'
        rw [converted] at accepted
        cases accepted

/-- A registration adds what its scripts add. -/
theorem registerFunction_grows (f : LuaFunc) (outside : st.Outside)
    (quiet : ¬(Operation.registerFunction f).Unwinds vm st) :
    Ends (registerFunction vm f) st
      (fun _ st' => ∃ added, st.Grows st' added ∧ (added = 0 ↔ vm.Registers f st))
      fun error st' => error.fatal = true ∨
        ∃ added, st.Grows st' added ∧ (added = 0 ↔ vm.Registers f st) := by
  rw [registerFunction]
  by_cases named : f.ns.length ≠ 0
  · rw [if_pos named]
    rw [Operation.Unwinds, if_pos named, not_or] at quiet
    obtain ⟨first_quiet, later_quiet⟩ := quiet
    apply Ends.bind (exec_grows vm f.createNs outside first_quiet)
    · rintro _ st' ⟨grows, incomplete⟩
      exact .inr ⟨1, grows, iff_of_false Nat.one_ne_zero fun registers =>
        incomplete (registers named).1⟩
    rintro ⟨⟩ st' first_ran ⟨added, grows, completes_iff⟩
    have outside' := grows.outside outside
    have register_quiet : ¬Throws (luaRegister vm (bytes "dummy") f) st' :=
      fun throws => later_quiet ⟨st', first_ran, .inl throws⟩
    have registered := luaRegister_grows vm f (bytes "dummy") outside' register_quiet
    apply Ends.bind registered fun _ _ => .inl
    rintro ⟨⟩ st'' register_ran grows'
    have outside'' := grows'.outside outside'
    have last_quiet : ¬vm.Unwinds f.moveDummy st'' :=
      fun unwinds => later_quiet ⟨st', first_ran, .inr ⟨st'', register_ran, unwinds⟩⟩
    have registers_iff : vm.Registers f st ↔ added = 0 ∧ vm.Completes f.moveDummy st'' 0 := by
      rw [completes_iff]
      constructor
      · exact fun registers => ⟨(registers named).1, (registers named).2 _ _ first_ran register_ran⟩
      · rintro ⟨first, last⟩ -
        refine ⟨first, fun mid mid' ran ran' => ?_⟩
        cases first_ran.symm.trans ran
        cases register_ran.symm.trans ran'
        exact last
    apply (exec_grows vm f.moveDummy outside'' last_quiet).mono
    · rintro _ last ⟨added', grows'', completes_iff'⟩
      refine ⟨_, (grows.trans grows').trans grows'', ?_⟩
      rw [registers_iff, ← completes_iff']
      omega
    · rintro _ last ⟨grows'', incomplete⟩
      refine .inr ⟨_, (grows.trans grows').trans grows'', ?_⟩
      rw [registers_iff]
      exact iff_of_false (Nat.succ_ne_zero _) fun registers => incomplete registers.2
  · rw [if_neg named]
    rw [Operation.Unwinds, if_neg named] at quiet
    refine (luaRegister_grows vm f (cStr f.name) outside quiet).mono ?_
      fun _ _ => .inl
    exact fun _ st' grows => ⟨0, grows, iff_of_true rfl fun given => absurd given named⟩

/-- What an operation that returns or throws does, from a state outside every call. -/
theorem perform_spec (operation : Operation) (outside : st.Outside)
    (quiet : ¬operation.Unwinds vm st) :
    Ends (operation.perform vm) st
      (fun _ st' => st'.Outside ∧ (st'.gettop = st.gettop ↔ operation.Balances vm st))
      fun error st' => error.fatal = true ∨
        (st'.Outside ∧ (st'.gettop = st.gettop ↔ operation.Balances vm st)) := by
  have of_grows {st' : LuaState} {balances : Prop} {added : Nat} (grows : st.Grows st' added)
      (balances_iff : added = 0 ↔ balances) :
      st'.Outside ∧ (st'.gettop = st.gettop ↔ balances) :=
    ⟨grows.outside outside, (grows.gettop_eq_iff outside).trans balances_iff⟩
  cases operation with
  | exec script =>
      apply Ends.bind (exec_grows vm script outside quiet)
      · rintro _ st' ⟨grows, incomplete⟩
        exact .inr (of_grows grows (iff_of_false Nat.one_ne_zero incomplete))
      · rintro _ st' - ⟨added, grows, completes_iff⟩
        exact of_grows grows completes_iff
  | getVariable type name =>
      apply Ends.bind (getVariable_height vm type name outside quiet)
      · rintro error st' (fatal | ⟨grows, other⟩)
        · exact .inl fatal
        · refine .inr (of_grows grows (iff_of_false Nat.one_ne_zero ?_))
          exact fun balances => other balances.2
      · rintro _ st' - ⟨restored, height, holds⟩
        refine ⟨⟨?_, ?_, restored.errorJmp.trans outside.errorJmp⟩, ?_⟩
        · rw [restored.base, restored.ci, outside.base_eq]
        · rw [restored.base, height]
        · have empty : st'.gettop = 0 := by
            rw [LuaState.gettop, height, restored.base, Nat.sub_self]
          rw [empty, Operation.Balances, and_iff_left holds]
          exact eq_comm
  | setVariable name var =>
      apply Ends.bind (luaPush_luaSetglobal_grows vm var.packed name outside quiet) fun _ _ => .inl
      exact fun _ st' _ grows => of_grows grows (iff_of_true rfl trivial)
  | registerFunction f =>
      apply Ends.bind (registerFunction_grows vm f outside quiet)
      · rintro error st' (fatal | ⟨added, grows, registers_iff⟩)
        · exact .inl fatal
        · exact .inr (of_grows grows registers_iff)
      · rintro _ st' - ⟨added, grows, registers_iff⟩
        exact of_grows grows registers_iff

/-- In every run of public operations on a new object in which no registered function throws, an
operation that returns or throws leaves the height of the stack as it was exactly when its condition
holds in the state before it. -/
theorem perform_gettop_eq_iff (heap : Heap) (operations : List Operation)
    (quiet : ∀ visit ∈ visits (Operation.perform vm) Abort.fatal operations (LuaState.fresh heap),
      ¬visit.operation.Unwinds vm visit.before) :
    ∀ visit ∈ visits (Operation.perform vm) Abort.fatal operations (LuaState.fresh heap),
      Continues Abort.fatal visit.outcome →
        (visit.after.gettop = visit.before.gettop ↔
          visit.operation.Balances vm visit.before) := by
  have one_step (operation : Operation) (st : LuaState) (outside : st.Outside)
      (silent : ¬operation.Unwinds vm st)
      (continues : Continues Abort.fatal (operation.perform vm st).1) :
      (operation.perform vm st).2.Outside ∧
        ((operation.perform vm st).2.gettop = st.gettop ↔ operation.Balances vm st) := by
    have ended := perform_spec vm operation outside silent
    rcases ran : operation.perform vm st with ⟨error | value, st'⟩
    · rw [ran] at continues
      rcases ended.of_error ran with fatal | kept
      · exact absurd (continues error rfl) (by simp [fatal])
      · exact kept
    · exact ended.of_ok ran
  intro visit member continues
  obtain ⟨outside, ran⟩ := visits_invariant LuaState.Outside
    (fun operation st => ¬operation.Unwinds vm st)
    (fun operation st outside silent continues =>
      (one_step operation st outside silent continues).1)
    operations ⟨rfl, le_rfl, rfl⟩ quiet visit member
  have kept := one_step visit.operation visit.before outside (quiet visit member)
  rw [ran] at kept
  exact (kept continues).2

end Operations

/-! ## A script that returns a value -/

/-- Every script is `return 1`. -/
def returnOne : Vm where
  libc := .textual
  parser _ _ := .ok 0
  proto _ := .lua 0 true 2
  code _ _ := .ret [.number 1]
  luaFNewCclosure _ _ := none
  luaFNewCclosure_unheld := unheld_of_full
  luaFNewCclosure_code _ _ _ full := by cases full

/-- A run in which values stay on the stack, and its call that keeps the height. -/
theorem perform_gettop_eq_iff_returnOne :
    ∃ visit ∈ visits (Operation.perform returnOne) Abort.fatal
        [.exec (bytes "return 1"), .getVariable .bool (bytes "x"),
          .setVariable (bytes "y") (.bool true), .getVariable .bool (bytes "y")]
        (LuaState.fresh .empty),
      visit.operation = .setVariable (bytes "y") (.bool true) ∧ visit.before.gettop = 2 ∧
        Continues Abort.fatal visit.outcome ∧
        (visit.after.gettop = visit.before.gettop ↔
          visit.operation.Balances returnOne visit.before) := by
  have whole : visits (Operation.perform returnOne) Abort.fatal
      [.exec (bytes "return 1"), .getVariable .bool (bytes "x"),
        .setVariable (bytes "y") (.bool true), .getVariable .bool (bytes "y")]
      (LuaState.fresh .empty) = [_, _, _, _] := rfl
  have kept := perform_gettop_eq_iff returnOne .empty
    [.exec (bytes "return 1"), .getVariable .bool (bytes "x"),
      .setVariable (bytes "y") (.bool true), .getVariable .bool (bytes "y")] (by
    rw [whole, List.forall_mem_cons, List.forall_mem_cons, List.forall_mem_cons,
      List.forall_mem_cons]
    refine ⟨?_, aborts_of_ok rfl, aborts_of_ok rfl, aborts_of_ok rfl, List.forall_mem_nil _⟩
    rintro ⟨f, -, -, unwinds⟩
    exact unwinds)
  rw [whole, List.forall_mem_cons, List.forall_mem_cons, List.forall_mem_cons] at kept
  obtain ⟨-, -, third, -⟩ := kept
  have continues : Continues Abort.fatal (.ok none : Except Abort (Option Arg)) := by
    rintro error ⟨⟩
  rw [whole]
  exact ⟨_, List.mem_cons_of_mem _ (List.mem_cons_of_mem _ List.mem_cons_self), rfl, rfl,
    continues, third continues⟩

/-- A result and a value of another type stay on the stack, and a value of the right type takes them
away: the second component is the height before and after every call, with how the call ended. -/
theorem perform_gettop_ne :
    (∃ visit ∈ visits (Operation.perform returnOne) Abort.fatal [.exec (bytes "return 1")]
        (LuaState.fresh .empty),
      Continues Abort.fatal visit.outcome ∧ visit.after.gettop ≠ visit.before.gettop) ∧
    (visits (Operation.perform returnOne) Abort.fatal
        [.exec (bytes "return 1"), .getVariable .bool (bytes "x"),
          .setVariable (bytes "y") (.bool true), .getVariable .bool (bytes "y")]
        (LuaState.fresh .empty)).map
      (fun visit => (visit.before.gettop, visit.after.gettop, visit.outcome)) =
    [(0, 1, .ok none), (1, 2, .error (.exception ArgType.bool.mismatch)), (2, 2, .ok none),
      (2, 0, .ok (some (.bool true)))] := by
  refine ⟨⟨_, List.mem_cons_self, ?_, by decide⟩, rfl⟩
  rintro error ⟨⟩

end LuaScript
