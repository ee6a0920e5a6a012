import LuaScript.Lua

/-!
# Runs of scripts

Over a run of `exec` calls, an exception is thrown from a restored call state exactly when it was
made from the error of a protected call.  When it came out of a callback, the error handler of the
protected call that it passed stays on the chain for good.
-/

namespace LuaScript

open Stateful

section Runs

variable (vm : Vm)

variable {st : LuaState}

theorem CallState.Restored.base_eq {st' : LuaState}
    (restored : st.toCallState.Restored st'.toCallState) (base_eq : st.base = st.ci.base) :
    st'.base = st'.ci.base := by
  rw [restored.base, restored.ci, base_eq]

/-- Every `exec` leaves the base at the current frame. -/
theorem exec_base (script : Bytes) (base_eq : st.base = st.ci.base) :
    (exec vm script st).2.base = (exec vm script st).2.ci.base := by
  have ended := exec_spec vm script base_eq
  rcases ran : exec vm script st with ⟨error | value, st'⟩
  · obtain ⟨-, ⟨restored, -⟩ | ⟨-, -, -, base_eq', -⟩⟩ := ended.of_error ran
    · exact restored.base_eq base_eq
    · exact base_eq'
  · exact (ended.of_ok ran).1.base_eq base_eq

/-- An `exec` from which no C++ exception comes out of the script restores the call state. -/
theorem exec_restored (script : Bytes) (base_eq : st.base = st.ci.base)
    (quiet : ¬vm.Unwinds script st) :
    st.toCallState.Restored (exec vm script st).2.toCallState := by
  have ended := exec_spec vm script base_eq
  rcases ran : exec vm script st with ⟨error | value, st'⟩
  · obtain ⟨-, ⟨restored, -⟩ | ⟨unwinds, -⟩⟩ := ended.of_error ran
    · exact restored
    · exact absurd unwinds quiet
  · exact (ended.of_ok ran).1

/-- In every run, an `exec` that throws has restored the call state exactly when its script did not
let a C++ exception out; in a run where no script does, every call state is the first one. -/
theorem exec_restored_iff (heap : Heap) (scripts : List Bytes) :
    (∀ visit ∈ visits (exec vm) Abort.fatal scripts (LuaState.fresh heap), ∀ e,
      visit.outcome = .error (.exception e) →
        (visit.before.toCallState.Restored visit.after.toCallState ↔
          ¬vm.Unwinds visit.operation visit.before)) ∧
    ((∀ visit ∈ visits (exec vm) Abort.fatal scripts (LuaState.fresh heap),
        ¬vm.Unwinds visit.operation visit.before) →
      ∀ visit ∈ visits (exec vm) Abort.fatal scripts (LuaState.fresh heap),
        (LuaState.fresh heap).toCallState.Restored visit.after.toCallState) := by
  constructor
  · intro visit member e thrown
    obtain ⟨base_eq, ran⟩ := visits_invariant (fun st => st.base = st.ci.base) (fun _ _ => True)
      (fun script _ base_eq _ _ => exec_base vm script base_eq) scripts rfl (fun _ _ => trivial)
      visit member
    rw [thrown] at ran
    obtain ⟨-, ⟨restored, -, value, value', fails, -⟩ | ⟨unwinds, -, -, -, handlers⟩⟩ :=
      (exec_spec vm visit.operation base_eq).of_error ran
    · exact iff_of_true restored fails.not_unwinds
    · exact iff_of_false (fun restored => handlers.ne' restored.errorJmp) (not_not.mpr unwinds)
  · intro all_quiet visit member
    obtain ⟨restored, ran⟩ := visits_invariant
      (fun st => (LuaState.fresh heap).toCallState.Restored st.toCallState)
      (fun script st => ¬vm.Unwinds script st)
      (fun script st restored quiet _ =>
        restored.trans (exec_restored vm script (restored.base_eq rfl) quiet))
      scripts (CallState.Restored.refl _) all_quiet visit member
    have kept := exec_restored vm visit.operation (restored.base_eq rfl) (all_quiet visit member)
    rw [ran] at kept
    exact restored.trans kept

end Runs

/-! ## A script that calls a function without its argument -/

/-- A registered function with one argument. -/
def oneArg : LuaFunc where
  id := 1
  ns := []
  name := bytes "f"
  inArgs := [.bool false]
  outArgs := []
  calculate _ outs := outs
  calculate_type _ _ := rfl

/-- Every script is `f()`. -/
def callWithout : Vm where
  libc := .textual
  parser _ _ := .ok 0
  proto _ := .lua 0 true 2
  code _ _ := .call [] (.function 1) [] (some 0) false .c (.callback oneArg) fun _ => .ret []
  luaFNewCclosure _ _ := none
  luaFNewCclosure_unheld := unheld_of_full
  luaFNewCclosure_code _ _ _ full := by cases full

/-- The exception leaves two frames, a C call and an error handler behind. -/
theorem exec_not_restored :
    ∃ visit ∈ visits (exec callWithout) Abort.fatal [bytes "f()"] (LuaState.fresh .empty),
      visit.outcome = .error (.exception (oneArg.arity 0)) ∧
        ¬visit.before.toCallState.Restored visit.after.toCallState ∧
        visit.after.callers.length = visit.before.callers.length + 2 ∧
        visit.after.nCcalls = visit.before.nCcalls + 1 ∧
        visit.after.errorJmp = visit.before.errorJmp + 1 := by
  refine ⟨_, List.mem_cons_self, rfl, fun restored => ?_, rfl, rfl, rfl⟩
  exact absurd restored.errorJmp (by decide)

end LuaScript
