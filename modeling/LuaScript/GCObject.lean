import LuaScript.LTable
import LuaScript.Marked

/-!
# Collectable objects

The data that the garbage collector of `lgc.c` works on: objects with their header, as `lobject.h`
and `lstate.h` declare them, and the global state.  Objects are named by their addresses, a pointer
is an address, and `NULL` is `none`.
-/

namespace LuaScript.GC

open Function

/-! ## Values and objects -/

abbrev Addr := Nat

/-- The tags of collectable objects (`gch.tt`). -/
inductive Tag where
  | string
  | table
  | function
  | userdata
  | thread
  | proto
  | upval
  deriving DecidableEq

/-- A pointer with the type that it is used at. -/
abbrev Ref := Tag × Addr

/-- `TValue` -/
inductive TValue where
  | nil
  | boolean (b : Bool)
  | lightuserdata (p : Nat)
  /-- Numbers are exact. -/
  | number (n : Rat)
  | string (o : Addr)
  | table (o : Addr)
  | function (o : Addr)
  | userdata (o : Addr)
  | thread (o : Addr)
  /-- `LUA_TPROTO`: prototypes are anchored in the stack while they are built. -/
  | proto (o : Addr)
  deriving DecidableEq

/-- The object of a collectable value, with its tag. -/
def TValue.ref : TValue → Option Ref
  | .nil => none
  | .boolean _ => none
  | .lightuserdata _ => none
  | .number _ => none
  | .string o => some (.string, o)
  | .table o => some (.table, o)
  | .function o => some (.function, o)
  | .userdata o => some (.userdata, o)
  | .thread o => some (.thread, o)
  | .proto o => some (.proto, o)

/-- `iscollectable` -/
def TValue.iscollectable (v : TValue) : Bool := v.ref.isSome

/-- `Node` -/
structure Node where
  /-- `i_key` -/
  key : TValue
  /-- The key has the type `LUA_TDEADKEY`. -/
  dead : Bool
  /-- `i_val` -/
  val : TValue
  /-- Only empty entries have dead keys. -/
  buried : dead = true → val = .nil
  deriving DecidableEq

/-- `Table` -/
structure Table where
  metatable : Option Addr
  array : List TValue
  node : List Node
  deriving DecidableEq

/-- `Udata` -/
structure Udata where
  metatable : Option Addr
  env : Addr
  deriving DecidableEq

/-- `Closure` -/
inductive Closure where
  /-- `CClosure` -/
  | c (env : Addr) (upvalue : List TValue)
  /-- `LClosure` -/
  | l (env p : Addr) (upvals : List Addr)
  deriving DecidableEq

/-- `UpVal` -/
inductive UpVal where
  /-- An open upvalue: `v` points into the stack of a thread. -/
  | stack (th : Addr) (level : Nat)
  /-- A closed upvalue: `v == &u.value`. -/
  | own (value : TValue)
  deriving DecidableEq

/-- `Proto` -/
structure Proto where
  source : Option Addr
  k : List TValue
  /-- Names of the upvalues. -/
  upvalues : List (Option Addr)
  p : List (Option Addr)
  /-- `varname` of the local variables. -/
  locvars : List (Option Addr)
  deriving DecidableEq

/-- `CallInfo` -/
structure CallInfo where
  top : Nat
  /-- `f_isLua(ci)` -/
  isLua : Bool
  deriving DecidableEq

/-- `lua_State` -/
structure Thread where
  /-- `l_gt` -/
  gt : TValue
  stack : List TValue
  top : Nat
  /-- The active calls. -/
  ci : List CallInfo
  openupval : List Addr
  deriving DecidableEq

/-- `GCObject`, without the header. -/
inductive GCObject where
  | string (s : Bytes)
  | table (h : Table)
  | function (cl : Closure)
  | userdata (u : Udata)
  | thread (th : Thread)
  | proto (f : Proto)
  | upval (uv : UpVal)
  deriving DecidableEq

/-- `gch.tt` -/
def GCObject.tt : GCObject → Tag
  | .string _ => .string
  | .table _ => .table
  | .function _ => .function
  | .userdata _ => .userdata
  | .thread _ => .thread
  | .proto _ => .proto
  | .upval _ => .upval

/-- The value of a stack slot. -/
def Thread.slot (th : Thread) (level : Nat) : TValue := th.stack.getD level .nil

/-! ## References -/

def TValue.refs (v : TValue) : List Ref := v.ref.toList

@[simp] theorem TValue.refs_nil : TValue.nil.refs = [] := rfl

/-- A pointer that may be `NULL`. -/
def pointer (tag : Tag) (o : Option Addr) : List Ref := (o.map fun o => (tag, o)).toList

/-- What a program can read of an entry. -/
def Node.refs (n : Node) : List Ref := if n.val = .nil then [] else n.key.refs ++ n.val.refs

/-- What an entry holds: its key can be found as long as it is not dead. -/
def Node.held (n : Node) : List Ref := (if n.dead then [] else n.key.refs) ++ n.val.refs

/-- References of a table, by those of its entries. -/
def Table.refsWith (node : Node → List Ref) (h : Table) : List Ref :=
  pointer .table h.metatable ++ h.array.flatMap TValue.refs ++ h.node.flatMap node

def Closure.refs : Closure → List Ref
  | .c env upvalue => (.table, env) :: upvalue.flatMap TValue.refs
  | .l env p upvals => (.table, env) :: (.proto, p) :: upvals.map fun uv => (.upval, uv)

def Udata.refs (u : Udata) : List Ref := pointer .table u.metatable ++ [(.table, u.env)]

/-- The end of the registers of the active Lua functions: when a call returns to one of them, the
top of the stack goes back there without any writing. -/
def Thread.registers (th : Thread) : Nat :=
  ((th.ci.filter CallInfo.isLua).map CallInfo.top).foldr max 0

/-- A thread refers to the values below the top of its stack, and to what calls have left in the
registers above it. -/
def Thread.refs (th : Thread) : List Ref :=
  th.gt.refs ++ (th.stack.take (max th.top th.registers)).flatMap TValue.refs

def Proto.refs (f : Proto) : List Ref :=
  pointer .string f.source ++ f.k.flatMap TValue.refs ++ f.upvalues.flatMap (pointer .string) ++
    f.p.flatMap (pointer .proto) ++ f.locvars.flatMap (pointer .string)

/-- References of an object, by those of table entries and by the values of stack slots. -/
def GCObject.refsWith (node : Node → List Ref) (slot : Addr → Nat → TValue) : GCObject → List Ref
  | .string _ => []
  | .table h => h.refsWith node
  | .function cl => cl.refs
  | .userdata u => u.refs
  | .thread th => th.refs
  | .proto f => f.refs
  | .upval (.stack th level) => (slot th level).refs
  | .upval (.own value) => value.refs

/-! ## The global state -/

/-- `gcstate` -/
inductive GCState where
  | pause
  | propagate
  | sweepstring
  | sweep
  | finalize
  deriving DecidableEq

/-- `global_State`, without the accounting of memory, and the header and contents of every
object. -/
structure GlobalState where
  object : Addr → Option GCObject
  marked : Addr → Marked
  /-- `strt.hash` -/
  strt : List (List Addr)
  /-- `strt.nuse` -/
  nuse : Nat
  currentwhite : Marked
  gcstate : GCState
  sweepstrgc : Nat
  rootgc : List Addr
  /-- The object whose field `next` the pointer `sweepgc` points to, `none` for `&g->rootgc`. -/
  sweepgc : Option Addr
  gray : List Addr
  grayagain : List Addr
  weak : List Addr
  /-- The circular list, from its first element (`tmudata->next`) to its last one (`tmudata`). -/
  tmudata : List Addr
  /-- `l_registry` -/
  registry : TValue
  mainthread : Addr
  uvhead : List Addr
  mt : List (Option Addr)
  /-- `tmname[TM_MODE]` -/
  tmMode : Addr
  /-- `tmname[TM_GC]` -/
  tmGc : Addr
  /-- The thread that runs (`L`). -/
  running : Addr

namespace GlobalState

variable (g : GlobalState) (o : Addr)

def tt : Option Tag := (g.object o).map GCObject.tt

/-- The value that an open upvalue points to. -/
def slot (th level : Addr) : TValue :=
  match g.object th with
  | some (.thread th) => th.slot level
  | _ => .nil

/-- What a program can read from an object. -/
def refs : List Ref :=
  match g.object o with
  | some x => x.refsWith Node.refs g.slot
  | none => []

/-- What an object holds. -/
def held : List Ref :=
  match g.object o with
  | some x => x.refsWith Node.held g.slot
  | none => []

def setMarked (m : Marked) : GlobalState := { g with marked := update g.marked o m }

def setObject (x : GCObject) : GlobalState := { g with object := update g.object o (some x) }

/-- Give the memory of an object back. -/
def free : GlobalState := { g with object := update g.object o none }

def iswhite : Bool := (g.marked o).iswhite

def isblack : Bool := (g.marked o).isblack

def isgray : Bool := (g.marked o).isgray

def isdead : Bool := Marked.isdead g.currentwhite (g.marked o)

def makewhite : GlobalState := g.setMarked o (Marked.makewhite g.currentwhite (g.marked o))

def white2gray : GlobalState := g.setMarked o (g.marked o).white2gray

def black2gray : GlobalState := g.setMarked o (g.marked o).black2gray

def gray2black : GlobalState := g.setMarked o (g.marked o).gray2black

def changewhite : GlobalState := g.setMarked o (g.marked o).changewhite

section

variable {g : GlobalState} {o p : Addr} {m : Marked} {x : GCObject}

@[simp] theorem marked_setMarked_self : (g.setMarked o m).marked o = m := by
  simp [setMarked]

theorem marked_setMarked_of_ne (ne : p ≠ o) : (g.setMarked o m).marked p = g.marked p := by
  simp [setMarked, ne]

theorem setMarked_eq_self (same : g.marked o = m) : g.setMarked o m = g := by
  rw [setMarked, ← same, update_eq_self]

@[simp] theorem object_setObject_self : (g.setObject o x).object o = some x := by
  simp [setObject]

theorem object_setObject_of_ne (ne : p ≠ o) : (g.setObject o x).object p = g.object p := by
  simp [setObject, ne]

theorem iswhite_setMarked :
    (g.setMarked o m).iswhite p = if p = o then m.iswhite else g.iswhite p := by
  unfold iswhite
  split_ifs with same
  · rw [same, marked_setMarked_self]
  · rw [marked_setMarked_of_ne same]

end

/-- `luaC_link`: a new object before the others. -/
def luaCLink (x : GCObject) : GlobalState :=
  { (g.setObject o x).setMarked o (Marked.luaCWhite g.currentwhite) with rootgc := o :: g.rootgc }

end GlobalState

end LuaScript.GC
