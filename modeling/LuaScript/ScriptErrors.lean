import LuaScript.Frames

/-!
# What `exec` throws for an error value

The constructor of `lua::exception` always assigns the message and the error text, but a bracket and
a colon in the message make it read a line with `sscanf`, which may find none and then assigns
nothing.  A value without a text never gets that far.
-/

namespace LuaScript

open Stateful Search

/-- The first bracket and colon of a text is followed by a numeral for `n`. -/
def CarriesLine (text : Bytes) (n : Int) : Prop :=
  ∃ front back, text = front ++ bytes "]:" ++ back ∧ ¬bytes "]:" <:+: front ∧
    sscanfInt back = some n

/-- Every field is assigned, and the line is 0 when the message carries none. -/
def Exception.Assigned (e : Exception) : Prop :=
  ∃ n, e.line = some n ∧ ((∀ m, ¬CarriesLine e.msg m) → n = 0)

/-- A text whose brackets and colons are read as a line, if it has any. -/
def LineReadable (text : Bytes) : Prop :=
  bytes "]:" <:+: text → ∃ n, CarriesLine text n

theorem Exception.new_msg (text : Bytes) : (Exception.new text).msg = text := by
  rw [Exception.new]
  split <;> rfl

theorem CarriesLine.line {text : Bytes} {n : Int} (carries : CarriesLine text n) :
    (Exception.new text).line = some n := by
  obtain ⟨front, back, rfl, first, read⟩ := carries
  rw [Exception.new_line first, read]

/-- The constructor assigns every field exactly when the line is readable. -/
theorem Exception.new_assigned_iff (text : Bytes) :
    (Exception.new text).Assigned ↔ LineReadable text := by
  constructor
  · rintro ⟨n, assigned, -⟩ located
    obtain ⟨front, back, rfl, first⟩ := exists_line_cut located
    rw [Exception.new_line first] at assigned
    exact ⟨n, front, back, rfl, first, assigned⟩
  · intro readable
    by_cases located : bytes "]:" <:+: text
    · obtain ⟨n, carries⟩ := readable located
      refine ⟨n, carries.line, fun none => ?_⟩
      rw [Exception.new_msg] at none
      exact absurd carries (none n)
    · rw [Exception.new_of_absent located]
      exact ⟨0, rfl, fun _ => rfl⟩

section Exec

variable (vm : Vm)

/-- In every run, an `exec` of a script that fails inside the interpreter throws an exception with
every field assigned exactly when the error value is a string or a number, and a bracket and a
colon in its text, if there is one, is followed by a numeral. -/
theorem exec_assigned_iff (heap : Heap) (operations : List Operation) :
    ∀ visit ∈ visits (Operation.perform vm) Abort.fatal operations (LuaState.fresh heap),
      ∀ script value left, visit.operation = .exec script →
        vm.Fails script visit.before value left →
          ((∃ e, visit.outcome = .error (.exception e) ∧ e.Assigned) ↔
            ∃ text, value.text vm.libc = some text ∧ LineReadable (cStr text)) := by
  rintro visit member script value left same fails
  obtain ⟨rest, ran⟩ := visits_atRest vm heap operations visit member
  obtain ⟨st', failed, -⟩ := exec_of_fails vm fails rest.base_eq
  rw [same, Operation.perform, bind_of_error failed] at ran
  obtain ⟨outcome, -⟩ := Prod.mk.inj ran
  rw [← outcome, Value.thrown]
  cases value.text vm.libc with
  | none =>
      apply iff_of_false
      · rintro ⟨e, impossible, -⟩
        cases impossible
      · rintro ⟨text, impossible, -⟩
        cases impossible
  | some text =>
      constructor
      · rintro ⟨e, thrown, assigned⟩
        cases thrown
        exact ⟨text, rfl, (Exception.new_assigned_iff _).mp assigned⟩
      · rintro ⟨_, same_text, readable⟩
        cases same_text
        exact ⟨_, rfl, (Exception.new_assigned_iff _).mpr readable⟩

end Exec

/-! ## Scripts that throw a value -/

/-- Every script calls `error` with a value, at level 0. -/
def throwing (value : Value) : Vm where
  libc := .textual
  parser _ _ := .ok 0
  proto _ := .lua 0 true 3
  code _ _ := .call [] (.function 1) [value, .number 0] (some 0) false .c
    (.throw .runerr value) fun _ => .ret []
  luaFNewCclosure _ _ := none
  luaFNewCclosure_unheld := unheld_of_full
  luaFNewCclosure_code _ _ _ full := by cases full

theorem throwing_fails (value : Value) (script : Bytes) :
    ∃ left, (throwing value).Fails script (LuaState.fresh .empty) value left := by
  let start := (throwing value).chunkStart 0 (LuaState.fresh .empty)
  have admits : (LuaState.fresh .empty).AdmitsCall := ⟨by decide, by decide⟩
  exact ⟨_, @Vm.Fails.runError (throwing value) script (LuaState.fresh .empty) 0 .runerr
    ((throwing value).body 0 start).2 rfl admits rfl⟩

/-- The script `error("a]:7", 0)` carries a line. -/
theorem exec_assigned_iff_seven :
    ∃ visit ∈ visits (Operation.perform (throwing (.string (bytes "a]:7")))) Abort.fatal
        [.exec (bytes "error('a]:7', 0)")] (LuaState.fresh .empty),
      (∃ e, visit.outcome = .error (.exception e) ∧ e.Assigned) ↔
        ∃ text, (Value.string (bytes "a]:7")).text .textual = some text ∧
          LineReadable (cStr text) := by
  obtain ⟨left, fails⟩ := throwing_fails (.string (bytes "a]:7")) (bytes "error('a]:7', 0)")
  exact ⟨_, List.mem_cons_self, exec_assigned_iff _ .empty [.exec (bytes "error('a]:7', 0)")] _
    List.mem_cons_self _ _ left rfl fails⟩

/-- A table has no text, and `sscanf` reads no line behind the bracket and colon. -/
theorem exec_not_assigned :
    (∃ visit ∈ visits (Operation.perform (throwing (.table 1))) Abort.fatal
        [.exec (bytes "error({}, 0)")] (LuaState.fresh .empty),
      (∃ left, (throwing (.table 1)).Fails (bytes "error({}, 0)") visit.before (.table 1) left) ∧
        visit.outcome = .error .undefined) ∧
    ∃ visit ∈ visits (Operation.perform (throwing (.string (bytes "x]:y")))) Abort.fatal
        [.exec (bytes "error('x]:y', 0)")] (LuaState.fresh .empty),
      (∃ left, (throwing (.string (bytes "x]:y"))).Fails (bytes "error('x]:y', 0)") visit.before
          (.string (bytes "x]:y")) left) ∧
        ∃ e, visit.outcome = .error (.exception e) ∧ e.line = none ∧ ¬e.Assigned := by
  refine ⟨⟨_, List.mem_cons_self, throwing_fails _ _, rfl⟩,
    _, List.mem_cons_self, throwing_fails _ _, _, rfl, rfl, ?_⟩
  rintro ⟨n, impossible, -⟩
  cases impossible

end LuaScript
