import LuaScript.CallDiscipline

/-!
# Exceptions out of running code

A C++ exception starts in a callback whose arguments do not match its signature, and nothing in the
core stops it: it leaves the code exactly when such a callback is reached.
-/

namespace LuaScript

open Stateful

/-- The abort is a C++ exception. -/
def Abort.IsException (abort : Abort) : Prop := ∃ e, abort = .exception e

/-- The computation throws a C++ exception. -/
abbrev Throws {α : Type} (computation : LuaM α) (st : LuaState) : Prop :=
  Aborts Abort.IsException computation st

/-- The code reaches a callback whose arguments do not match its signature. -/
def Code.Unwinds (libc : Libc) : Code → LuaState → Prop
  | .ret _, _ => False
  | .throw _ _, _ => False
  | .unwind _, _ => True
  | .heap write next, st =>
      (next (write st.heap)).Unwinds libc { st with heap := write st.heap }
  | .callback f, st => convertArgs libc f.inArgs (st.stack.drop st.base) = none
  | .call frame func args nresults recursive proto body next, st =>
      let called := { st with stack := st.stack.take st.base ++ (frame ++ func :: args) }
      let position := st.base + frame.length
      if recursive then
        called.AdmitsCall ∧ body.Unwinds libc (called.enterCounted position nresults proto) ∨
          ∃ st', luaDCall position nresults proto (body.run libc) called = (.ok (), st') ∧
            (next (st'.stack.drop position)).Unwinds libc st'
      else
        body.Unwinds libc (called.enter position nresults proto) ∨
          ∃ st', callFunction position nresults proto (body.run libc) called = (.ok (), st') ∧
            (next (st'.stack.drop position)).Unwinds libc st'
  | .pcall frame body next, st =>
      let called := { st with stack := st.stack.take st.base ++ frame }
      body.Unwinds libc called.protect ∨
        ∃ outcome st', luaDPcall (body.run libc) called.stack.length called = (.ok outcome, st') ∧
          match outcome with
          | .ok n => (next none (st'.last n)).Unwinds libc st'
          | .error status => (next (some status) (st'.last 1)).Unwinds libc st'

section Throws

variable {α : Type} {st : LuaState}

/-- Errors of the core are not C++ exceptions. -/
theorem not_throws_luaDThrow (status : Status) : ¬Throws (luaDThrow status : LuaM α) st := by
  by_cases outside : st.errorJmp = 0
  · have thrown : (luaDThrow status : LuaM α) st = (.error .exit, st) := by
      rw [luaDThrow, get_bind, if_pos outside, abort_apply]
    rw [Throws, aborts_of_error thrown]
    rintro ⟨e, same⟩
    cases same
  · have thrown : (luaDThrow status : LuaM α) st = (.error (.jump status), st) := by
      rw [luaDThrow, get_bind, if_neg outside, abort_apply]
    rw [Throws, aborts_of_error thrown]
    rintro ⟨e, same⟩
    cases same

theorem not_throws_raise (status : Status) (value : Value) :
    ¬Throws (raise status value : LuaM α) st := by
  rw [Throws, raise, aborts_modify_bind]
  exact not_throws_luaDThrow status

/-- Entering and leaving a function do not throw. -/
theorem throws_callFunction_iff (func : Nat) (nresults : Option Nat) (proto : Proto)
    (body : LuaM Nat) :
    Throws (callFunction func nresults proto body) st ↔
      Throws body (st.enter func nresults proto) := by
  rw [Throws, callFunction, luaDPrecall, aborts_modify_bind, aborts_bind_iff]
  apply or_iff_left
  rintro ⟨n, st', -, left⟩
  exact aborts_of_ok (modify_apply st' _) left

/-- Counting a call throws at most an error of the core. -/
theorem throws_luaDCall_iff (func : Nat) (nresults : Option Nat) (proto : Proto)
    (body : LuaM Nat) :
    Throws (luaDCall func nresults proto body) st ↔
      st.AdmitsCall ∧ Throws body (st.enterCounted func nresults proto) := by
  let counted : LuaState := { st with nCcalls := st.nCcalls + 1 }
  rw [Throws, luaDCall, aborts_modify_bind, aborts_get_bind]
  by_cases overflow : counted.nCcalls = luaiMaxccalls
  · rw [if_pos overflow]
    exact iff_of_false (not_throws_raise .runerr _) fun admits => admits.1.1 overflow
  rw [if_neg overflow]
  by_cases handling : counted.nCcalls ≥ luaiMaxccalls + luaiMaxccalls / 8
  · rw [if_pos handling]
    exact iff_of_false (not_throws_luaDThrow .errerr) fun admits =>
      absurd admits.1.2 (not_lt_of_ge handling)
  rw [if_neg handling, LuaState.enterCounted, ← throws_callFunction_iff]
  have admits : st.AdmitsCall := ⟨overflow, lt_of_not_ge handling⟩
  rw [and_iff_right admits]
  refine (aborts_bind_iff _ _).trans (or_iff_left ?_)
  rintro ⟨value, st', -, left⟩
  exact aborts_of_ok (modify_apply st' _) left

private theorem throws_luaDRawrunprotected_iff (computation : LuaM α) :
    Throws (luaDRawrunprotected computation) st ↔ Throws computation st.protect := by
  rcases ran : computation st.protect with ⟨abort | value, inner⟩
  · rw [Throws, Throws, aborts_of_error ran]
    rw [LuaState.protect] at ran
    cases abort with
    | jump status =>
        refine iff_of_false ?_ (by rintro ⟨e, same⟩; cases same)
        exact aborts_of_ok (by rw [luaDRawrunprotected, ran])
    | exception e => exact aborts_of_error (by rw [luaDRawrunprotected, ran])
    | exit => exact aborts_of_error (by rw [luaDRawrunprotected, ran])
    | undefined => exact aborts_of_error (by rw [luaDRawrunprotected, ran])
  · refine iff_of_false ?_ (aborts_of_ok ran)
    rw [LuaState.protect] at ran
    exact aborts_of_ok (by rw [luaDRawrunprotected, ran])

/-- A protected call passes C++ exceptions on. -/
theorem throws_luaDPcall_iff (computation : LuaM α) (oldTop : Nat) :
    Throws (luaDPcall computation oldTop) st ↔ Throws computation st.protect := by
  rw [← throws_luaDRawrunprotected_iff, Throws, luaDPcall, aborts_get_bind]
  refine (aborts_bind_iff _ _).trans (or_iff_left ?_)
  rintro ⟨outcome, st', -, later⟩
  cases outcome with
  | ok value => exact aborts_pure _ later
  | error status => exact aborts_pure _ later

/-- A callback throws when it cannot convert the arguments above its base. -/
theorem throws_luaCallback_iff (libc : Libc) (f : LuaFunc) :
    Throws (luaCallback libc f) st ↔ convertArgs libc f.inArgs (st.stack.drop st.base) = none := by
  by_cases inside : st.base ≤ st.stack.length
  · have framed : st.base = (st.stack.take st.base).length := by
      rw [List.length_take, Nat.min_eq_left inside]
    have split : { st with stack := st.stack.take st.base ++ st.stack.drop st.base } = st := by
      rw [List.take_append_drop]
    cases converted : convertArgs libc f.inArgs (st.stack.drop st.base) with
    | none =>
        obtain ⟨e, values, -, thrown⟩ := luaCallback_of_mismatch libc f st framed converted
        rw [split] at thrown
        rw [Throws, aborts_of_error thrown]
        exact iff_of_true ⟨e, rfl⟩ rfl
    | some ins =>
        have returned := luaCallback_of_convert libc f st framed converted
        rw [split] at returned
        exact iff_of_false (aborts_of_ok returned) (by simp)
  · have argc : st.gettop = 0 := Nat.sub_eq_zero_of_le (Nat.le_of_not_le inside)
    rw [List.drop_of_length_le (Nat.le_of_not_le inside)]
    cases signature : f.inArgs with
    | nil =>
        refine iff_of_false ?_ (by simp [convertArgs])
        rw [Throws, luaCallback, aborts_get_bind, argc, signature, if_neg (by simp), unpackArgs,
          pure_bind, aborts_modify_bind]
        refine ((aborts_bind_iff _ _).trans (or_iff_left ?_)).not.mpr
          (aborts_of_ok (packArgs_eq _ _))
        rintro ⟨_, _, -, later⟩
        exact aborts_pure _ later
    | cons arg args =>
        refine iff_of_true ?_ rfl
        rw [Throws, luaCallback, aborts_get_bind, argc, signature, if_pos (by simp), aborts_abort]
        exact ⟨_, rfl⟩

/-- Code throws exactly when it reaches a callback that does. -/
theorem Code.throws_run_iff (libc : Libc) (code : Code) (st : LuaState) :
    Throws (code.run libc) st ↔ code.Unwinds libc st := by
  induction code generalizing st with
  | ret results => exact iff_of_false (aborts_pure _) id
  | throw status value => exact iff_of_false (not_throws_raise status value) id
  | unwind e => exact iff_of_true ((aborts_abort _).mpr ⟨e, rfl⟩) trivial
  | heap write next induction => exact induction _ _
  | callback f => exact throws_luaCallback_iff libc f
  | call frame func args nresults recursive proto body next body_iff next_iff =>
      have later_iff (computation : LuaM Unit) (called : LuaState) (position : Nat) :
          (∃ value st', computation called = (.ok value, st') ∧
              Throws ((next (st'.stack.drop position)).run libc) st') ↔
            ∃ st', computation called = (.ok (), st') ∧
              (next (st'.stack.drop position)).Unwinds libc st' := by
        simp only [next_iff]
        exact ⟨fun ⟨_, later⟩ => later, fun later => ⟨(), later⟩⟩
      rw [Throws, Code.run, setFrame, aborts_modify_bind, aborts_get_bind]
      cases recursive with
      | true =>
          refine (aborts_bind_iff _ _).trans (or_congr ?_ (later_iff _ _ _))
          exact (throws_luaDCall_iff _ _ _ _).trans (and_congr_right' (body_iff _))
      | false =>
          refine (aborts_bind_iff _ _).trans (or_congr ?_ (later_iff _ _ _))
          exact (throws_callFunction_iff _ _ _ _).trans (body_iff _)
  | pcall frame body next body_iff next_iff =>
      rw [Throws, Code.run, setFrame, aborts_modify_bind, aborts_get_bind, Code.Unwinds]
      refine (aborts_bind_iff _ _).trans (or_congr ?_ ?_)
      · exact (throws_luaDPcall_iff _ _).trans (body_iff _)
      · refine exists_congr fun outcome => exists_congr fun st' => and_congr_right' ?_
        cases outcome with
        | ok n => exact next_iff _ _ _
        | error status => exact next_iff _ _ _

end Throws

end LuaScript
