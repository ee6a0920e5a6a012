import LuaScript.LState

/-!
# Access to the stack

The functions of `lapi.c` that read, convert and push values.
-/

namespace LuaScript

open Stateful

/-- `index2adr` for the indices of stack slots: the position, if it is below the top. -/
def LuaState.index2adr (st : LuaState) (idx : Int) : Option Nat :=
  let position : Int := if idx > 0 then st.base + (idx - 1) else st.stack.length + idx
  if 0 ≤ position ∧ position < st.stack.length then some position.toNat else none

/-- The value at an index; `none` is `luaO_nilobject`. -/
def LuaState.valueAt (st : LuaState) (idx : Int) : Option Value :=
  (st.index2adr idx).bind fun position => st.stack[position]?

/-- `lua_gettop` -/
def LuaState.gettop (st : LuaState) : Nat := st.stack.length - st.base

/-- `lua_settop` with a negative index, `lua_pop(L, n)` -/
def luaPop (n : Nat) : LuaM Unit :=
  modify fun st => { st with stack := st.stack.take (st.stack.length - n) }

/-- Store a value and `api_incr_top`. -/
def luaPush (value : Value) : LuaM Unit :=
  modify fun st => { st with
    stack := st.stack ++ [value]
    overrun := st.overrun || decide (st.ci.top ≤ st.stack.length) }

/-! ## Conversions -/

section Conversions

variable (libc : Libc)

/-- `luaO_str2d` -/
def luaOStr2d (s : Bytes) : Option Rat :=
  let s := cStr s
  let (result, endptr) := libc.strtod s
  if endptr = s then none
  else
    let (result, endptr) :=
      if endptr.headD 0 = ch 'x' ∨ endptr.headD 0 = ch 'X' then
        let (result, endptr) := libc.strtoul s
        ((result : Rat), endptr)
      else (result, endptr)
    if endptr.dropWhile isspace = [] then some result else none

/-- `luaV_tonumber` -/
def luaVTonumber : Value → Option Rat
  | .number n => some n
  | .string s => luaOStr2d libc s
  | _ => none

/-- `lua_number2integer`: truncation to `ptrdiff_t`; what does not fit becomes the least value. -/
def luaNumber2integer (n : Rat) : Int :=
  let truncated := n.num.tdiv n.den
  if -2 ^ 63 ≤ truncated ∧ truncated < 2 ^ 63 then truncated else -2 ^ 63

/-- `lua_isboolean` -/
def luaIsboolean (st : LuaState) (idx : Int) : Bool :=
  match st.valueAt idx with
  | some (.boolean _) => true
  | _ => false

/-- `lua_toboolean` -/
def luaToboolean (st : LuaState) (idx : Int) : Bool :=
  match st.valueAt idx with
  | none | some .nil | some (.boolean false) => false
  | _ => true

/-- `lua_isnumber` -/
def luaIsnumber (st : LuaState) (idx : Int) : Bool :=
  ((st.valueAt idx).bind (luaVTonumber libc)).isSome

/-- `lua_tointeger` -/
def luaTointeger (st : LuaState) (idx : Int) : Int :=
  match (st.valueAt idx).bind (luaVTonumber libc) with
  | some n => luaNumber2integer n
  | none => 0

/-- `lua_isstring` -/
def luaIsstring (st : LuaState) (idx : Int) : Bool :=
  match st.valueAt idx with
  | some (.string _) | some (.number _) => true
  | _ => false

/-- `lua_tolstring`: a number is converted in its slot. -/
def luaTolstring (idx : Int) : LuaM (Option Bytes) := do
  let st ← get
  match st.index2adr idx with
  | none => pure none
  | some position =>
      match st.stack[position]? with
      | some (.string s) => pure (some s)
      | some (.number n) => do
          let s := cStr (libc.number2str n)
          modify fun st => { st with stack := st.stack.set position (.string s) }
          pure (some s)
      | _ => pure none

end Conversions

end LuaScript
