import LuaScript.Unwind

/-!
# Calls of registered functions

A call of a registered function runs `calc` when the arguments match the signature, position by
position, and hands its outputs to the caller; otherwise it throws and `calc` does not run.
-/

namespace LuaScript

open Stateful

section Callback

variable (libc : Libc)

/-- A value that an argument class accepts. -/
def Value.ConvertibleTo (value : Value) (type : ArgType) : Prop :=
  match type, value with
  | .bool, .boolean _ => True
  | .int, .number _ => True
  | .int, .string s => (luaOStr2d libc s).isSome
  | .string, .string _ => True
  | .string, .number _ => True
  | _, _ => False

/-- The state in which a value is the only argument. -/
def LuaState.alone (st : LuaState) (value : Value) : LuaState :=
  { st with base := 0, stack := [value] }

theorem ArgType.ofValue_isSome_iff (type : ArgType) (value : Value) :
    (type.ofValue libc value).isSome ↔ value.ConvertibleTo libc type := by
  cases type <;> cases value <;> simp [ofValue, Value.ConvertibleTo, luaVTonumber]

/-- Unpacking a value on its own. -/
theorem ArgType.unpack_alone {type : ArgType} {value : Value} {input : Arg}
    (found : type.ofValue libc value = some input) (st : LuaState) :
    (type.unpack libc 1 (st.alone value)).1 = .ok input := by
  rw [type.unpack_eq libc (st.alone value) Nat.one_pos le_rfl rfl, found]

/-- Arguments match a signature when every one is of the class at its position. -/
theorem convertArgs_isSome_iff_convertible (args : List Arg) (values : List Value) :
    (convertArgs libc args values).isSome ↔ values.length = args.length ∧
      ∀ (i : Nat) (arg : Arg) (value : Value), args[i]? = some arg → values[i]? = some value →
        value.ConvertibleTo libc arg.type := by
  simp only [convertArgs_isSome_iff, ArgType.ofValue_isSome_iff]

variable (f : LuaFunc) (st : LuaState) (cl : Nat) (below args : List Value) (nresults : Option Nat)

/-- A call of a closure of a registered function, with arguments above a stack. -/
def LuaFunc.call : Except Abort Unit × LuaState :=
  callFunction below.length nresults .c (luaCallback libc f)
    { st with stack := below ++ .function cl :: args }

/-- The call made `calc` run, once, on the given arguments. -/
def LuaFunc.Invoked (ins : List Arg) : Prop :=
  (f.call libc st cl below args nresults).2.calls =
    st.calls ++ [{ function := f.id, args := ins }]

/-- The state in which the callback starts. -/
private def callbackStart : LuaState :=
  { st with
    base := below.length + 1
    ci := {
      func := below.length
      base := below.length + 1
      top := below.length + 1 + args.length + luaMinstack
      nresults }
    callers := st.frames }

private theorem call_eq :
    f.call libc st cl below args nresults = (luaCallback libc f >>= luaDPoscall)
      { callbackStart st below args nresults with
        stack := below ++ [.function cl] ++ args } := by
  have entered : luaDPrecall below.length nresults .c
      { st with stack := below ++ .function cl :: args } =
        (.ok (), { callbackStart st below args nresults with
          stack := below ++ [.function cl] ++ args }) := by
    simp only [luaDPrecall, modify_apply, callbackStart, List.length_append, List.length_cons,
      List.append_assoc, List.singleton_append, Nat.add_right_comm, Nat.add_assoc]
  rw [LuaFunc.call, callFunction, bind_of_ok entered]

private theorem framed : (callbackStart st below args nresults).base =
    (below ++ [Value.function cl]).length := by
  rw [List.length_append]
  rfl

/-- A call with matching arguments. -/
theorem LuaFunc.call_of_convert {ins : List Arg}
    (converted : convertArgs libc f.inArgs args = some ins) :
    ∃ st', f.call libc st cl below args nresults = (.ok (), st') ∧
      st'.calls = st.calls ++ [{ function := f.id, args := ins }] ∧
      st'.stack = below ++ adjustResults nresults ((f.calculate ins f.outArgs).map Arg.packed) ∧
      (f.outArgs.length ≤ luaMinstack → st'.overrun = st.overrun) := by
  have width : ((f.calculate ins f.outArgs).map Arg.packed).length = f.outArgs.length := by
    have types := congrArg List.length (f.calculate_type ins f.outArgs)
    simpa using types
  rw [call_eq, bind_of_ok (luaCallback_of_convert libc f _ (framed st cl below args nresults)
    converted)]
  refine ⟨_, rfl, rfl, ?_, fun small => ?_⟩
  · have front (values results : List Value) :
        (below ++ [Value.function cl] ++ values ++ results).take below.length = below := by
      rw [List.append_assoc, List.append_assoc, List.take_left]
    have last (values : List Value) :
        (values ++ (f.calculate ins f.outArgs).map Arg.packed).drop
          ((values ++ (f.calculate ins f.outArgs).map Arg.packed).length - f.outArgs.length) =
            (f.calculate ins f.outArgs).map Arg.packed := by
      rw [List.length_append, width, Nat.add_sub_cancel, List.drop_left]
    simp only [callbackStart, CallState.frames, front, last]
  · have reserved : ¬below.length + 1 + args.length + luaMinstack <
        (below ++ [Value.function cl]).length + args.length + f.outArgs.length := by
      simp only [List.length_append, List.length_singleton]
      omega
    simp only [callbackStart, CallState.frames, reserved, and_false, decide_false, Bool.or_false]

/-- A call with other arguments. -/
theorem LuaFunc.call_of_mismatch (mismatch : convertArgs libc f.inArgs args = none) :
    ∃ e st', f.call libc st cl below args nresults = (.error (.exception e), st') ∧
      st'.calls = st.calls := by
  obtain ⟨e, values, -, thrown⟩ :=
    luaCallback_of_mismatch libc f _ (framed st cl below args nresults) mismatch
  exact ⟨e, _, (call_eq ..).trans (bind_of_error thrown), rfl⟩

/-- Marshalling of a call of a registered function, for every signature and every list of arguments:
when `calc` runs, what it sees, what the caller receives, and what happens otherwise. -/
theorem LuaFunc.call_marshals :
    ((∃ ins, f.Invoked libc st cl below args nresults ins) ↔ args.length = f.inArgs.length ∧
      ∀ (i : Nat) (arg : Arg) (value : Value), f.inArgs[i]? = some arg → args[i]? = some value →
        value.ConvertibleTo libc arg.type) ∧
    (∀ ins, f.Invoked libc st cl below args nresults ins →
      ins.length = args.length ∧
      (∀ (i : Nat) (arg : Arg) (value : Value), f.inArgs[i]? = some arg → args[i]? = some value →
        ∃ input, ins[i]? = some input ∧
          (arg.type.unpack libc 1 (st.alone value)).1 = .ok input) ∧
      ∃ st' results, f.call libc st cl below args nresults = (.ok (), st') ∧
        st'.stack = below ++ adjustResults nresults results ∧
        results.length = f.outArgs.length ∧
        (∀ (i : Nat) (out : Arg), (f.calculate ins f.outArgs)[i]? = some out →
          ∃ value, results[i]? = some value ∧
            (out.pack st).2.stack = st.stack ++ [value]) ∧
        (f.outArgs.length ≤ luaMinstack → st'.overrun = st.overrun)) ∧
    ((¬∃ ins, f.Invoked libc st cl below args nresults ins) →
      ∃ e st', f.call libc st cl below args nresults = (.error (.exception e), st') ∧
        st'.calls = st.calls) := by
  rw [← convertArgs_isSome_iff_convertible]
  cases converted : convertArgs libc f.inArgs args with
  | none =>
      obtain ⟨e, st', thrown, calls⟩ := f.call_of_mismatch libc st cl below args nresults converted
      have silent (ins : List Arg) : ¬f.Invoked libc st cl below args nresults ins := by
        rw [Invoked, thrown]
        simp [calls]
      refine ⟨by simp [silent], fun ins invoked => absurd invoked (silent ins), fun _ => ?_⟩
      exact ⟨e, st', thrown, calls⟩
  | some ins =>
      obtain ⟨st', returned, calls, stack_eq, reserved⟩ :=
        f.call_of_convert libc st cl below args nresults converted
      have invoked_iff (ins' : List Arg) :
          f.Invoked libc st cl below args nresults ins' ↔ ins = ins' := by
        rw [Invoked, returned]
        simp [calls]
      obtain ⟨width, each⟩ := convertArgs_getElem? libc converted
      refine ⟨by simp [invoked_iff], ?_, fun none => absurd ⟨ins, (invoked_iff ins).mpr rfl⟩ none⟩
      rintro ins' invoked
      obtain rfl := (invoked_iff ins').mp invoked
      refine ⟨width, fun i arg value here there => ?_, st', _, returned, stack_eq, ?_, ?_, reserved⟩
      · have bound : i < ins.length := width ▸ (List.getElem?_eq_some_iff.mp there).1
        have found := each i arg value here there
        rw [List.getElem?_eq_getElem bound] at found
        exact ⟨ins[i], List.getElem?_eq_getElem bound, ArgType.unpack_alone libc found.symm st⟩
      · simpa using congrArg List.length (f.calculate_type ins f.outArgs)
      · intro i out here
        exact ⟨out.packed, by rw [List.getElem?_map, here]; rfl, rfl⟩

end Callback

end LuaScript
