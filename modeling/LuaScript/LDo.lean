import LuaScript.ArgT

/-!
# Calls and protected calls

The functions of `ldo.c`: throwing, protected calls, entering and leaving functions.  The core is
compiled as C, so a protected call catches a `longjmp` and nothing else; a C++ exception passes
through all of these functions without running the code that follows in them.

What interpreted code and the library functions do with their own frame is an open term: a `Code`
is a finite tree of the calls they make, and everything it does to frames, counters and error
handlers goes through the functions of this module.
-/

namespace LuaScript

open Stateful

/-! ## Errors -/

/-- `luaD_throw` -/
def luaDThrow {α : Type} (status : Status) : LuaM α := do
  let st ← get
  if st.errorJmp = 0 then abort .exit else abort (.jump status)

/-- Put an error object on the top and throw. -/
def raise {α : Type} (status : Status) (value : Value) : LuaM α := do
  modify fun st => { st with stack := st.stack ++ [value] }
  luaDThrow status

/-- `luaG_runerror` outside Lua code and without a message handler. -/
def luaGRunerror {α : Type} (msg : Bytes) : LuaM α := raise .runerr (.string msg)

/-- `luaD_seterrorobj` -/
def luaDSeterrorobj (errcode : Status) (oldtop : Nat) (st : LuaState) : LuaState :=
  let value := match errcode with
    | .memerr => .string (bytes "not enough memory")
    | .errerr => .string (bytes "error in error handling")
    | .syntaxerr | .runerr => st.stack.getLastD .nil
  { st with stack := st.stack.take oldtop ++ [value] }

/-- `L->ci = restoreci(L, old_ci)`: the frame with that many frames below it. -/
def LuaState.restoreci (st : LuaState) (depth : Nat) : LuaState :=
  match st.frames.drop (st.callers.length - depth) with
  | ci :: callers => { st with ci, callers }
  | [] => st

/-- `luaD_rawrunprotected` -/
def luaDRawrunprotected {α : Type} (f : LuaM α) : LuaM (Except Status α) := fun st =>
  match f { st with errorJmp := st.errorJmp + 1 } with
  | (.ok value, st') => (.ok (.ok value), { st' with errorJmp := st.errorJmp })
  | (.error (.jump status), st') => (.ok (.error status), { st' with errorJmp := st.errorJmp })
  | (.error abort, st') => (.error abort, st')

/-- `luaD_pcall` -/
def luaDPcall {α : Type} (func : LuaM α) (oldTop : Nat) : LuaM (Except Status α) := do
  let old ← get
  match ← luaDRawrunprotected func with
  | .ok value => pure (.ok value)
  | .error status => do
      modify fun st =>
        let st := luaDSeterrorobj status oldTop st
        let st := { st with nCcalls := old.nCcalls }
        let st := st.restoreci old.callers.length
        { st with base := st.ci.base }
      pure (.error status)

/-! ## Functions -/

/-- What `luaD_precall` reads of a function. -/
inductive Proto where
  /-- A C function. -/
  | c
  /-- A Lua function. -/
  | lua (numparams : Nat) (isVararg : Bool) (maxstacksize : Nat)

/-- `luaD_precall`, up to the start of the function; the contents of its registers are its own
business. -/
def luaDPrecall (func : Nat) (nresults : Option Nat) (proto : Proto) : LuaM Unit :=
  modify fun st =>
    match proto with
    | .c =>
        { st with
          base := func + 1
          ci := { func, base := func + 1, top := st.stack.length + luaMinstack, nresults }
          callers := st.frames }
    | .lua numparams isVararg maxstacksize =>
        let nargs := st.stack.length - (func + 1)
        let stack :=
          if isVararg then st.stack ++ List.replicate (numparams - nargs) .nil
          else st.stack.take (func + 1 + numparams)
        let base := if isVararg then stack.length else func + 1
        { st with
          base
          ci := { func, base, top := base + maxstacksize, nresults }
          callers := st.frames
          stack := stack ++ List.replicate (base + maxstacksize - stack.length) .nil }

/-- The results that a caller gets. -/
def adjustResults (wanted : Option Nat) (results : List Value) : List Value :=
  match wanted with
  | some wanted => results.take wanted ++ List.replicate (wanted - results.length) .nil
  | none => results

/-- `luaD_poscall` with the last `n` values as results. -/
def luaDPoscall (n : Nat) : LuaM Unit :=
  modify fun st =>
    match st.callers with
    | caller :: callers =>
        { st with
          base := caller.base
          ci := caller
          callers
          stack := st.stack.take st.ci.func ++
            adjustResults st.ci.nresults (st.stack.drop (st.stack.length - n)) }
    | [] => st

/-- Enter a function, run its body and leave it. -/
def callFunction (func : Nat) (nresults : Option Nat) (proto : Proto) (body : LuaM Nat) :
    LuaM Unit := do
  luaDPrecall func nresults proto
  let n ← body
  luaDPoscall n

/-- `luaD_call` -/
def luaDCall (func : Nat) (nresults : Option Nat) (proto : Proto) (body : LuaM Nat) :
    LuaM Unit := do
  modify fun st => { st with nCcalls := st.nCcalls + 1 }
  let st ← get
  if st.nCcalls = luaiMaxccalls then luaGRunerror (bytes "C stack overflow")
  else if st.nCcalls ≥ luaiMaxccalls + luaiMaxccalls / 8 then
    luaDThrow .errerr  -- error while handling stack error
  else
    callFunction func nresults proto body
    modify fun st => { st with nCcalls := st.nCcalls - 1 }

/-! ## Code -/

/-- What the code of a function does, as far as its callers can see. -/
inductive Code where
  /-- Return results. -/
  | ret (results : List Value)
  /-- Throw an error. -/
  | throw (status : Status) (value : Value)
  /-- Pass on an exception that a registered function threw in a coroutine. -/
  | unwind (e : Exception)
  /-- Change the tables and go on by what they hold. -/
  | heap (write : Heap → Heap) (next : Heap → Code)
  /-- The code of `lua::lua_callback`. -/
  | callback (f : LuaFunc)
  /-- Call a function with arguments above a frame, through `luaD_call` or directly from the
  interpreter loop, and go on by its results. -/
  | call (frame : List Value) (func : Value) (args : List Value) (nresults : Option Nat)
      (recursive : Bool) (proto : Proto) (body : Code) (next : List Value → Code)
  /-- Run code in a protected call above a frame, and go on by its status and its results. -/
  | pcall (frame : List Value) (body : Code) (next : Option Status → List Value → Code)

/-- Put values above the base of the current frame. -/
def setFrame (frame : List Value) : LuaM Unit :=
  modify fun st => { st with stack := st.stack.take st.base ++ frame }

/-- The last values of the stack. -/
def LuaState.last (st : LuaState) (n : Nat) : List Value := st.stack.drop (st.stack.length - n)

/-- Run code: the number of results it leaves on the top of the stack. -/
def Code.run (libc : Libc) : Code → LuaM Nat
  | .ret results => do
      modify fun st => { st with stack := st.stack ++ results }
      pure results.length
  | .throw status value => raise status value
  | .unwind e => abort (.exception e)
  | .heap write next => do
      modify fun st => { st with heap := write st.heap }
      let st ← get
      (next st.heap).run libc
  | .callback f => luaCallback libc f
  | .call frame func args nresults recursive proto body next => do
      setFrame (frame ++ func :: args)
      let st ← get
      let position := st.base + frame.length
      if recursive then luaDCall position nresults proto (body.run libc)
      else callFunction position nresults proto (body.run libc)
      let st ← get
      (next (st.stack.drop position)).run libc
  | .pcall frame body next => do
      setFrame frame
      let st ← get
      match ← luaDPcall (body.run libc) st.stack.length with
      | .ok n => do
          let st ← get
          (next none (st.last n)).run libc
      | .error status => do
          let st ← get
          (next (some status) (st.last 1)).run libc

end LuaScript
