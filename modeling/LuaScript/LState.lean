import LuaScript.Exception
import LuaScript.Lib.Stateful

/-!
# The interpreter state

Values, the table heap, the stack with its call frames, and the ways a computation on them can
end.  Stack positions count from the bottom of the stack array.  The code that runs between two
calls of `ldo.c` is not interpreted here, so a frame keeps no program counter.
-/

namespace LuaScript

/-! ## Values -/

/-- `TValue`; tables, functions, userdata and threads are identities. -/
inductive Value where
  | nil
  | boolean (b : Bool)
  | lightuserdata (p : Nat)
  /-- Numbers are exact; there are no infinities and there is no NaN. -/
  | number (n : Rat)
  | string (s : Bytes)
  | table (t : Nat)
  | function (f : Nat)
  | userdata (u : Nat)
  | thread (t : Nat)
  deriving DecidableEq

/-- `luaT_typenames` -/
def Value.typename : Value → Bytes
  | .nil => bytes "nil"
  | .boolean _ => bytes "boolean"
  | .lightuserdata _ => bytes "userdata"
  | .number _ => bytes "number"
  | .string _ => bytes "string"
  | .table _ => bytes "table"
  | .function _ => bytes "function"
  | .userdata _ => bytes "userdata"
  | .thread _ => bytes "thread"

/-- The tables, and the metatable that tag methods of a value are looked up in. -/
structure Heap where
  /-- Contents of every table; an absent key has the value `nil`. -/
  table : Nat → Value → Value
  /-- Metatable of a value. -/
  metatable : Value → Option Nat
  /-- The table of globals, `gt(L)`. -/
  globals : Nat

/-- `luaH_set` followed by the assignment of the value. -/
def Heap.set (heap : Heap) (t : Nat) (key value : Value) : Heap :=
  { heap with table := fun t' key' =>
      if t' = t ∧ key' = key then value else heap.table t' key' }

/-- The tag method of a value for an event, `nil` when there is none. -/
def Heap.tagMethod (heap : Heap) (value : Value) (event : Bytes) : Value :=
  match heap.metatable value with
  | some t => heap.table t (.string event)
  | none => .nil

/-- The value of a global variable, read without tag methods. -/
def Heap.global (heap : Heap) (name : Bytes) : Value := heap.table heap.globals (.string name)

section Heap

variable (heap : Heap) (t : Nat) (key value : Value)

@[simp]
theorem Heap.globals_set : (heap.set t key value).globals = heap.globals := rfl

@[simp]
theorem Heap.metatable_set : (heap.set t key value).metatable = heap.metatable := rfl

@[simp]
theorem Heap.table_set (t' : Nat) (key' : Value) :
    (heap.set t key value).table t' key' =
      if t' = t ∧ key' = key then value else heap.table t' key' := rfl

end Heap

/-! ## Arguments of registered functions -/

/-- The argument classes of `lua`. -/
inductive ArgType where
  /-- `bool_arg_t` -/
  | bool
  /-- `int_arg_t` -/
  | int
  /-- `string_arg_t` -/
  | string
  deriving DecidableEq

/-- An object of an argument class, with its value. -/
inductive Arg where
  | bool (value : Bool)
  | int (value : Int32)
  | string (value : Bytes)
  deriving DecidableEq

/-- The class of an argument object. -/
def Arg.type : Arg → ArgType
  | .bool _ => .bool
  | .int _ => .int
  | .string _ => .string

/-- One invocation of a registered function's `calc`. -/
structure Invocation where
  /-- The function. -/
  function : Nat
  /-- The arguments it saw. -/
  args : List Arg
  deriving DecidableEq

/-! ## Frames -/

/-- Stack slots that a C function finds free. -/
def luaMinstack : Nat := 20

/-- Nested calls of C functions. -/
def luaiMaxccalls : Nat := 200

/-- `CallInfo` -/
structure CallInfo where
  /-- Position of the function. -/
  func : Nat
  /-- Position of the first argument. -/
  base : Nat
  /-- End of the slots reserved for the frame. -/
  top : Nat
  /-- Number of results the caller wants; `none` is `LUA_MULTRET`. -/
  nresults : Option Nat
  deriving DecidableEq

/-- The part of `lua_State` that calls and protected calls maintain. -/
structure CallState where
  /-- `L->base` -/
  base : Nat
  /-- `L->ci` -/
  ci : CallInfo
  /-- The frames below `L->ci`, the nearest first. -/
  callers : List CallInfo
  /-- `L->nCcalls` -/
  nCcalls : Nat
  /-- Length of the chain `L->errorJmp`. -/
  errorJmp : Nat
  deriving DecidableEq

/-- All frames, the current one first. -/
def CallState.frames (call : CallState) : List CallInfo := call.ci :: call.callers

/-- `lua_State`, with two records of what happened on it. -/
structure LuaState extends CallState where
  /-- The stack up to `L->top`. -/
  stack : List Value
  /-- Tables. -/
  heap : Heap
  /-- Invocations of registered functions, in order. -/
  calls : List Invocation
  /-- Some push of the API found `L->top` at the end of its frame. -/
  overrun : Bool

/-- The state of a new `lua` object; the libraries only leave tables behind. -/
def LuaState.fresh (heap : Heap) : LuaState where
  base := 1
  ci := { func := 0, base := 1, top := 1 + luaMinstack, nresults := none }
  callers := []
  nCcalls := 0
  errorJmp := 0
  stack := [.nil]
  heap
  calls := []
  overrun := false

/-! ## Computations -/

/-- Error codes. -/
inductive Status where
  /-- `LUA_ERRRUN` -/
  | runerr
  /-- `LUA_ERRSYNTAX` -/
  | syntaxerr
  /-- `LUA_ERRMEM` -/
  | memerr
  /-- `LUA_ERRERR` -/
  | errerr
  deriving DecidableEq

/-- The ways in which a computation does not return. -/
inductive Abort where
  /-- `longjmp` to the innermost protected call. -/
  | jump (status : Status)
  /-- A C++ exception. -/
  | exception (e : Exception)
  /-- The end of the process: an error outside every protected call. -/
  | exit
  /-- Undefined behaviour: a `std::string` made from a null pointer. -/
  | undefined
  deriving DecidableEq

/-- A computation on the interpreter state. -/
abbrev LuaM := Stateful Abort LuaState

/-- The functions of the C library that conversions call. -/
structure Libc where
  /-- `strtod`: the number and the text behind it. -/
  strtod : Bytes → Rat × Bytes
  /-- `strtoul` in base 16: the number and the text behind it. -/
  strtoul : Bytes → Nat × Bytes
  /-- `sprintf` with `"%.14g"`. -/
  number2str : Rat → Bytes

/-! A C library and tables to run small programs with. -/

/-- A C library that finds no number in any text. -/
def Libc.textual : Libc where
  strtod s := (0, s)
  strtoul s := (0, s)
  number2str _ := []

/-- Tables without contents. -/
def Heap.empty : Heap where
  table _ _ := .nil
  metatable _ := none
  globals := 0

end LuaScript
