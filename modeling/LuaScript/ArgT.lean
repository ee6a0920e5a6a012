import LuaScript.LApi

/-!
# Arguments and callbacks

The argument classes of `luascript.h`, their conversion from and to stack slots, and
`lua::lua_callback`, the C function that stands for a registered function.  Unpacking an argument
depends on its own slot only and changes no other.
-/

namespace LuaScript

open Stateful

/-- A function description, the template argument of `register_function`. -/
structure LuaFunc where
  /-- Identity of `lua_callback` as a C function. -/
  id : Nat
  /-- `ns()` -/
  ns : Bytes
  /-- `name()` -/
  name : Bytes
  /-- `in_args()` -/
  inArgs : List Arg
  /-- `out_args()` -/
  outArgs : List Arg
  /-- `calc`: the output objects with the values it assigns to them. -/
  calculate : List Arg → List Arg → List Arg
  /-- Assigning values keeps the objects and their classes. -/
  calculate_type : ∀ ins outs, (calculate ins outs).map Arg.type = outs.map Arg.type

/-- What `unpack` throws for a value of another type. -/
def ArgType.mismatch : ArgType → Exception
  | .bool => .new (bytes "bool_arg_t::unpack(), value is not boolean")
  | .int => .new (bytes "int_arg_t::unpack(), value is not integer")
  | .string => .new (bytes "string_arg_t::unpack(), value is not string")

section Unpack

variable (libc : Libc)

/-- `arg_t::unpack` -/
def ArgType.unpack (type : ArgType) (nparam : Nat) : LuaM Arg := do
  let st ← get
  match type with
  | .bool =>
      if luaIsboolean st nparam then pure (.bool (luaToboolean st nparam))
      else abort (.exception ArgType.bool.mismatch)
  | .int =>
      if luaIsnumber libc st nparam then
        pure (.int (Int32.ofInt (luaTointeger libc st nparam)))
      else abort (.exception ArgType.int.mismatch)
  | .string =>
      if luaIsstring st nparam then
        match ← luaTolstring libc nparam with
        | some s => pure (.string (cStr s))
        | none => abort .undefined
      else abort (.exception ArgType.string.mismatch)

/-- `args_t::unpack`, from the parameter `nparam` on. -/
def unpackArgs : List Arg → Nat → LuaM (List Arg)
  | [], _ => pure []
  | arg :: args, nparam => do
      let value ← arg.type.unpack libc nparam
      let values ← unpackArgs args (nparam + 1)
      pure (value :: values)

/-- The value that `arg_t::pack` pushes. -/
def Arg.packed : Arg → Value
  | .bool value => .boolean value
  | .int value => .number value.toInt
  | .string value => .string (cStr value)

/-- `arg_t::pack` -/
def Arg.pack (arg : Arg) : LuaM Unit := luaPush arg.packed

/-- `args_t::pack` -/
def packArgs : List Arg → LuaM Unit
  | [] => pure ()
  | arg :: args => do
      arg.pack
      packArgs args

/-- What a callback throws for a wrong number of arguments. -/
def LuaFunc.arity (f : LuaFunc) (argc : Nat) : Exception :=
  .new (bytes "function '" ++ f.name ++ bytes "'" ++ bytes " requires " ++
    decimal f.inArgs.length ++ bytes " arguments, but " ++ decimal argc ++ bytes " given")

/-- `lua::lua_callback`: the number of results it leaves on the top of the stack. -/
def luaCallback (f : LuaFunc) : LuaM Nat := do
  let st ← get
  let argc := st.gettop
  if f.inArgs.length ≠ argc then abort (.exception (f.arity argc))
  else
    let ins ← unpackArgs libc f.inArgs 1
    modify fun st => { st with calls := st.calls ++ [{ function := f.id, args := ins }] }
    let outs := f.calculate ins f.outArgs
    packArgs outs
    pure outs.length

/-! ## Slots -/

/-- What unpacking a value yields: nothing for a value of another type. -/
def ArgType.ofValue : ArgType → Value → Option Arg
  | .bool, .boolean b => some (.bool b)
  | .int, value => (luaVTonumber libc value).map fun n => .int (Int32.ofInt (luaNumber2integer n))
  | .string, .string s => some (.string (cStr s))
  | .string, .number n => some (.string (cStr (libc.number2str n)))
  | _, _ => none

/-- What unpacking leaves in the slot: a string in the place of a number it was read from. -/
def ArgType.slot : ArgType → Value → Value
  | .string, .number n => .string (cStr (libc.number2str n))
  | _, value => value

/-- A parameter of the current frame is the slot at that distance from the base. -/
theorem LuaState.index2adr_param {st : LuaState} {nparam : Nat} (positive : 0 < nparam)
    (inside : st.base + nparam ≤ st.stack.length) :
    st.index2adr nparam = some (st.base + (nparam - 1)) := by
  simp only [LuaState.index2adr]
  rw [if_pos (by omega : (nparam : Int) > 0), if_pos (by omega)]
  congr 1
  omega

/-- Unpacking reads one slot, and writes at most that one. -/
theorem ArgType.unpack_eq (type : ArgType) (st : LuaState) {nparam : Nat} {value : Value}
    (positive : 0 < nparam) (inside : st.base + nparam ≤ st.stack.length)
    (here : st.stack[st.base + (nparam - 1)]? = some value) :
    type.unpack libc nparam st =
      match type.ofValue libc value with
      | some arg => (.ok arg, { st with
          stack := st.stack.set (st.base + (nparam - 1)) (type.slot libc value) })
      | none => (.error (.exception type.mismatch), st) := by
  have found := LuaState.index2adr_param positive inside
  have value_at : st.valueAt nparam = some value := by
    rw [LuaState.valueAt, found, Option.bind_some, here]
  have unchanged : st.stack.set (st.base + (nparam - 1)) value = st.stack := by
    obtain ⟨bound, same⟩ := List.getElem?_eq_some_iff.mp here
    rw [← same, List.set_getElem_self]
  have keep : { st with stack := st.stack.set (st.base + (nparam - 1)) value } = st := by
    rw [unchanged]
  cases type with
  | bool =>
      cases value <;> simp [unpack, luaIsboolean, luaToboolean, value_at, ofValue, slot, keep]
      rename_i b
      cases b <;> rfl
  | int =>
      cases number : luaVTonumber libc value with
      | none => simp [unpack, luaIsnumber, value_at, ofValue, number]
      | some n => simp [unpack, luaIsnumber, luaTointeger, value_at, ofValue, number, slot, keep]
  | string =>
      cases value <;>
        simp [unpack, luaIsstring, luaTolstring, value_at, found, here, ofValue, slot, keep,
          bind_apply]

/-- Unpacking the top of the stack, as the parameter with the number of values in the frame. -/
theorem ArgType.unpack_top (type : ArgType) (st : LuaState) {front : List Value} {value : Value}
    (top : st.stack = front ++ [value]) (inside : st.base ≤ front.length) :
    type.unpack libc st.gettop st =
      match type.ofValue libc value with
      | some arg => (.ok arg, { st with stack := front ++ [type.slot libc value] })
      | none => (.error (.exception type.mismatch), st) := by
  have width : st.stack.length = front.length + 1 := by rw [top, List.length_append]; rfl
  have position : st.base + (st.gettop - 1) = front.length := by rw [LuaState.gettop]; omega
  have here : st.stack[st.base + (st.gettop - 1)]? = some value := by
    rw [position, top, List.getElem?_append_right le_rfl, Nat.sub_self]
    rfl
  rw [type.unpack_eq libc st (by rw [LuaState.gettop]; omega) (by rw [LuaState.gettop]; omega) here,
    position, top, List.set_append_right _ _ le_rfl, Nat.sub_self, List.set_cons_zero]

/-- The arguments that unpacking a list of values yields, slot by slot; nothing when the numbers
differ or a value is of another type. -/
def convertArgs : List Arg → List Value → Option (List Arg)
  | [], [] => some []
  | arg :: args, value :: values =>
      match arg.type.ofValue libc value, convertArgs args values with
      | some first, some rest => some (first :: rest)
      | _, _ => none
  | _, _ => none

/-- Converting succeeds when there is a value of the right class for every position. -/
theorem convertArgs_isSome_iff (args : List Arg) (values : List Value) :
    (convertArgs libc args values).isSome ↔ values.length = args.length ∧
      ∀ (i : Nat) (arg : Arg) (value : Value), args[i]? = some arg → values[i]? = some value →
        (arg.type.ofValue libc value).isSome := by
  induction args generalizing values with
  | nil => cases values <;> simp [convertArgs]
  | cons arg args induction =>
      cases values with
      | nil => simp [convertArgs]
      | cons value values =>
          have step : (convertArgs libc (arg :: args) (value :: values)).isSome ↔
              (arg.type.ofValue libc value).isSome ∧ (convertArgs libc args values).isSome := by
            rw [convertArgs]
            cases arg.type.ofValue libc value <;> cases convertArgs libc args values <;> simp
          rw [step, induction, List.length_cons, List.length_cons, Nat.succ_inj]
          constructor
          · rintro ⟨first, same, rest⟩
            refine ⟨same, fun i arg' value' here there => ?_⟩
            cases i with
            | zero =>
                obtain ⟨rfl, rfl⟩ : arg = arg' ∧ value = value' := by
                  simpa using And.intro here there
                exact first
            | succ i => exact rest i arg' value' here there
          · rintro ⟨same, all⟩
            exact ⟨all 0 arg value rfl rfl, same, fun i => all (i + 1)⟩

/-- Every position is converted on its own. -/
theorem convertArgs_getElem? {args : List Arg} {values : List Value} {ins : List Arg}
    (converted : convertArgs libc args values = some ins) :
    ins.length = values.length ∧
      ∀ (i : Nat) (arg : Arg) (value : Value), args[i]? = some arg → values[i]? = some value →
        ins[i]? = arg.type.ofValue libc value := by
  induction args generalizing values ins with
  | nil =>
      cases values with
      | nil =>
          obtain rfl : [] = ins := by simpa [convertArgs] using converted
          simp
      | cons value values => simp [convertArgs] at converted
  | cons arg args induction =>
      cases values with
      | nil => simp [convertArgs] at converted
      | cons value values =>
          rw [convertArgs] at converted
          split at converted
          · rename_i input rest found later
            obtain rfl : input :: rest = ins := by simpa using converted
            obtain ⟨same, all⟩ := induction later
            refine ⟨by simp [same], fun i arg' value' here there => ?_⟩
            cases i with
            | zero =>
                obtain ⟨rfl, rfl⟩ : arg = arg' ∧ value = value' := by
                  simpa using And.intro here there
                exact found.symm
            | succ i => exact all i arg' value' here there
          · simp at converted

/-- `args_t::unpack` converts the slots one by one. -/
theorem unpackArgs_eq (args : List Arg) (s : LuaState) (front values : List Value) (k : Nat)
    (position : s.base + k = front.length) (same : values.length = args.length) :
    match convertArgs libc args values with
    | some ins => unpackArgs libc args (k + 1) { s with stack := front ++ values } =
        (.ok ins, { s with
          stack := front ++ List.zipWith (fun arg value => arg.type.slot libc value) args values })
    | none => ∃ e values', values'.length = values.length ∧
        unpackArgs libc args (k + 1) { s with stack := front ++ values } =
          (.error (.exception e), { s with stack := front ++ values' }) := by
  induction args generalizing front values k with
  | nil =>
      obtain rfl := List.length_eq_zero_iff.mp same
      simp [convertArgs, unpackArgs]
  | cons arg args induction =>
      obtain ⟨value, values, rfl⟩ := List.exists_cons_of_length_eq_add_one same
      have bound : s.base + (k + 1) ≤ (front ++ value :: values).length := by
        rw [List.length_append, List.length_cons]
        omega
      have slot_at : s.base + (k + 1 - 1) = front.length := by omega
      have here : (front ++ value :: values)[s.base + (k + 1 - 1)]? = some value := by
        rw [slot_at, List.getElem?_append_right le_rfl, Nat.sub_self]
        rfl
      have first := arg.type.unpack_eq libc { s with stack := front ++ value :: values }
        (Nat.succ_pos k) bound here
      simp only [slot_at, List.set_append_right _ _ le_rfl, Nat.sub_self,
        List.set_cons_zero] at first
      rw [convertArgs]
      cases found : arg.type.ofValue libc value with
      | none =>
          rw [found] at first
          exact ⟨_, value :: values, rfl, by rw [unpackArgs, bind_of_error first]⟩
      | some input =>
          rw [found] at first
          have later := induction (front ++ [arg.type.slot libc value]) values (k + 1)
            (by rw [List.length_append, List.length_singleton]; omega) (by simpa using same)
          simp only [List.append_assoc, List.singleton_append] at later
          cases converted : convertArgs libc args values with
          | none =>
              rw [converted] at later
              obtain ⟨e, values', width, failed⟩ := later
              refine ⟨e, arg.type.slot libc value :: values', by simp [width], ?_⟩
              rw [unpackArgs, bind_of_ok first, bind_of_error failed]
          | some ins =>
              rw [converted] at later
              simp only
              rw [unpackArgs, bind_of_ok first, bind_of_ok later]
              rfl

/-- `args_t::pack` pushes the values in order. -/
theorem packArgs_eq (outs : List Arg) (st : LuaState) :
    packArgs outs st = (.ok (), { st with
      stack := st.stack ++ outs.map Arg.packed
      overrun := st.overrun ||
        decide (outs ≠ [] ∧ st.ci.top < st.stack.length + outs.length) }) := by
  induction outs generalizing st with
  | nil => simp [packArgs]
  | cons arg outs induction =>
      have first : arg.pack st = (.ok (), { st with
          stack := st.stack ++ [arg.packed]
          overrun := st.overrun || decide (st.ci.top ≤ st.stack.length) }) := rfl
      rw [packArgs, bind_of_ok first, induction]
      simp only [List.map_cons, List.append_assoc, List.singleton_append, List.length_append,
        List.length_cons, Bool.or_assoc, ne_eq, reduceCtorEq,
        not_false_eq_true, true_and, ← Bool.decide_or]
      congr 4
      rw [eq_iff_iff]
      cases outs with
      | nil =>
          simp only [not_true_eq_false, false_and, or_false, List.length_nil]
          omega
      | cons =>
          simp only [reduceCtorEq, not_false_eq_true, true_and, List.length_cons, List.length_nil]
          omega

/-- A callback on a matching frame calculates and pushes the outputs. -/
theorem luaCallback_of_convert (f : LuaFunc) (s : LuaState) {front values : List Value}
    {ins : List Arg} (framed : s.base = front.length)
    (converted : convertArgs libc f.inArgs values = some ins) :
    luaCallback libc f { s with stack := front ++ values } =
      (.ok f.outArgs.length, { s with
        stack := front ++
          List.zipWith (fun arg value => arg.type.slot libc value) f.inArgs values ++
          (f.calculate ins f.outArgs).map Arg.packed
        calls := s.calls ++ [{ function := f.id, args := ins }]
        overrun := s.overrun || decide (f.outArgs ≠ [] ∧
          s.ci.top < front.length + values.length + f.outArgs.length) }) := by
  have same := ((convertArgs_isSome_iff libc f.inArgs values).mp (by rw [converted]; rfl)).1
  have argc : ({ s with stack := front ++ values } : LuaState).gettop = f.inArgs.length := by
    rw [LuaState.gettop, framed, List.length_append, Nat.add_sub_cancel_left, same]
  have outs : (f.calculate ins f.outArgs).length = f.outArgs.length := by
    simpa using congrArg List.length (f.calculate_type ins f.outArgs)
  have width : (List.zipWith (fun arg value => arg.type.slot libc value) f.inArgs values).length =
      values.length := by
    rw [List.length_zipWith, same, Nat.min_self]
  have empty : f.calculate ins f.outArgs = [] ↔ f.outArgs = [] := by
    rw [← List.length_eq_zero_iff, outs, List.length_eq_zero_iff]
  have unpacked := unpackArgs_eq libc f.inArgs s front values 0 (by omega) same
  rw [converted] at unpacked
  rw [luaCallback, get_bind, argc, if_neg (not_not.mpr rfl), bind_of_ok unpacked, modify_bind,
    bind_of_ok (packArgs_eq _ _)]
  simp only [pure_apply, outs, List.length_append, width, ne_eq, empty]

/-- A callback on any other frame throws, and calculates nothing. -/
theorem luaCallback_of_mismatch (f : LuaFunc) (s : LuaState) {front values : List Value}
    (framed : s.base = front.length) (mismatch : convertArgs libc f.inArgs values = none) :
    ∃ e values', values'.length = values.length ∧
      luaCallback libc f { s with stack := front ++ values } =
        (.error (.exception e), { s with stack := front ++ values' }) := by
  have argc : ({ s with stack := front ++ values } : LuaState).gettop = values.length := by
    rw [LuaState.gettop, framed, List.length_append, Nat.add_sub_cancel_left]
  by_cases same : values.length = f.inArgs.length
  · have unpacked := unpackArgs_eq libc f.inArgs s front values 0 (by omega) same
    rw [mismatch] at unpacked
    obtain ⟨e, values', width, failed⟩ := unpacked
    refine ⟨e, values', width, ?_⟩
    rw [luaCallback, get_bind, argc, if_neg (not_not.mpr same.symm), bind_of_error failed]
  · refine ⟨f.arity values.length, values, rfl, ?_⟩
    rw [luaCallback, get_bind, argc, if_pos (Ne.symm same), abort_apply]

end Unpack

/-! ## Integers -/

/-- An `int` survives the way through `lua_Number` and `lua_Integer`. -/
theorem int32_of_number (value : Int32) :
    Int32.ofInt (luaNumber2integer (value.toInt : Rat)) = value := by
  have low := value.le_toInt
  have high := value.toInt_lt
  have exact_integer : luaNumber2integer (value.toInt : Rat) = value.toInt := by
    rw [luaNumber2integer, Rat.num_intCast, Rat.den_intCast, Int.natCast_one, Int.tdiv_one,
      if_pos (by omega)]
  rw [exact_integer, Int32.ofInt_toInt]

/-- Unpacking a number as an `int` never throws; it stores the number itself exactly when that is an
integer of 32 bits. -/
theorem ArgType.unpack_int_exact_iff (libc : Libc) (st : LuaState) (nparam : Nat) {value : Value}
    {q : Rat} (here : st.valueAt nparam = some value)
    (number : luaVTonumber libc value = some q) :
    ((∃ st', ArgType.int.unpack libc nparam st =
        (.error (.exception ArgType.int.mismatch), st')) ∨
      ∃ n st', ArgType.int.unpack libc nparam st = (.ok (.int n), st') ∧ (n.toInt : Rat) = q) ↔
    ∃ n : Int, q = n ∧ -2 ^ 31 ≤ n ∧ n < 2 ^ 31 := by
  have stored : ArgType.int.unpack libc nparam st =
      (.ok (.int (Int32.ofInt (luaNumber2integer q))), st) := by
    simp [unpack, luaIsnumber, luaTointeger, here, number]
  rw [stored]
  constructor
  · rintro (⟨st', thrown⟩ | ⟨n, st', same, exact_value⟩)
    · cases thrown
    · exact ⟨n.toInt, exact_value.symm, n.le_toInt, n.toInt_lt⟩
  · rintro ⟨n, rfl, low, high⟩
    have value_eq : (Int32.ofInt n).toInt = n := Int32.toInt_ofInt_of_le low high
    have kept := int32_of_number (Int32.ofInt n)
    rw [value_eq] at kept
    rw [kept]
    exact .inr ⟨_, _, rfl, by rw [value_eq]⟩

/-- An argument of a new object's main program. -/
private def withNumber (n : Rat) : LuaState :=
  { LuaState.fresh .empty with stack := [.nil, .number n] }

/-- An integer of 32 bits is stored. -/
theorem ArgType.unpack_int_exact_small :
    ((∃ st', ArgType.int.unpack .textual (1 : Nat) (withNumber (-7)) =
        (.error (.exception ArgType.int.mismatch), st')) ∨
      ∃ n st', ArgType.int.unpack .textual (1 : Nat) (withNumber (-7)) = (.ok (.int n), st') ∧
        (n.toInt : Rat) = -7) ↔
    ∃ n : Int, (-7 : Rat) = n ∧ -2 ^ 31 ≤ n ∧ n < 2 ^ 31 :=
  ArgType.unpack_int_exact_iff .textual (withNumber (-7)) 1 rfl rfl

/-- A fraction is cut off, and an integer of 33 bits wraps around. -/
theorem ArgType.unpack_int_inexact :
    (ArgType.int.unpack .textual 1 (withNumber (7 / 2))).1 = .ok (.int 3) ∧
      (ArgType.int.unpack .textual 1 (withNumber 4294967296)).1 = .ok (.int 0) ∧
      ¬((∃ st', ArgType.int.unpack .textual 1 (withNumber (7 / 2)) =
          (.error (.exception ArgType.int.mismatch), st')) ∨
        ∃ n st', ArgType.int.unpack .textual 1 (withNumber (7 / 2)) = (.ok (.int n), st') ∧
          (n.toInt : Rat) = 7 / 2) := by
  have stored : (ArgType.int.unpack .textual 1 (withNumber (7 / 2))).1 = .ok (.int 3) := by
    decide +kernel
  refine ⟨stored, by decide +kernel, ?_⟩
  rintro (⟨st', thrown⟩ | ⟨n, st', same, exact_value⟩)
  · rw [thrown] at stored
    cases stored
  · rw [same] at stored
    cases stored
    exact absurd exact_value (by decide +kernel)

end LuaScript
