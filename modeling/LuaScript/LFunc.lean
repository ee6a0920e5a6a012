import LuaScript.GCMark

/-!
# Upvalues and strings

The functions of `lfunc.c` that open and close upvalues, the string table of `lstring.c`, and the
creation of the other objects.
-/

namespace LuaScript.GC

namespace GlobalState

variable (g : GlobalState)

/-! ## Upvalues -/

def setOpenupval (L : Addr) (openupval : List Addr) : GlobalState :=
  match g.object L with
  | some (.thread th) => g.setObject L (.thread { th with openupval })
  | _ => g

/-- `openupval` of a thread. -/
def openupval (L : Addr) : List Addr :=
  match g.object L with
  | some (.thread th) => th.openupval
  | _ => []

/-- The stack slot of an open upvalue. -/
def level (uv : Addr) : Option Nat :=
  match g.object uv with
  | some (.upval (.stack _ level)) => some level
  | _ => none

theorem object_of_level {g : GlobalState} {uv : Addr} (is_open : (g.level uv).isSome) :
    ∃ L level, g.object uv = some (.upval (.stack L level)) := by
  rw [level] at is_open
  split at is_open
  · next L level object => exact ⟨L, level, object⟩
  · cases is_open

/-- The loop of `luaF_findupval`: the upvalues that it passes, and the upvalue that it finds. -/
def searchupval (level : Nat) : List Addr → List Addr × Option Addr × List Addr
  | [] => ([], none, [])
  | p :: rest =>
      match g.level p with
      | some v =>
          if v < level then ([], none, p :: rest)
          else if v = level then ([], some p, rest)
          else
            let (passed, found, rest) := searchupval level rest
            (p :: passed, found, rest)
      | none => ([], none, p :: rest)

/-- `luaF_findupval`, with the address of a new upvalue. -/
def luaFFindupval (L : Addr) (level : Nat) (new : Addr) : GlobalState × Addr :=
  match g.searchupval level (g.openupval L) with
  | (_, some p, _) => (if g.isdead p then g.changewhite p else g, p)
  | (passed, none, rest) =>
      let g := g.setObject new (.upval (.stack L level))
      let g := g.setMarked new (Marked.luaCWhite g.currentwhite)
      let g := g.setOpenupval L (passed ++ new :: rest)
      ({ g with uvhead := new :: g.uvhead }, new)

/-- `unlinkupval` -/
def unlinkupval (uv : Addr) : GlobalState := { g with uvhead := g.uvhead.erase uv }

/-- `luaF_freeupval` -/
def luaFFreeupval (uv : Addr) : GlobalState :=
  (if (g.level uv).isSome then g.unlinkupval uv else g).free uv

/-- One round of `luaF_close`, which takes the first open upvalue off the list. -/
def closeupval (L uv v : Addr) (rest : List Addr) : GlobalState :=
  let value := g.slot L v
  let g := g.setOpenupval L rest
  if g.isdead uv then g.luaFFreeupval uv
  else
    let g := g.unlinkupval uv
    let g := g.setObject uv (.upval (.own value))
    g.luaCLinkupval uv value

/-- The loop of `luaF_close` over the open upvalues. -/
def closeupvals (L level : Addr) : GlobalState → List Addr → GlobalState
  | g, [] => g
  | g, uv :: rest =>
      match g.level uv with
      | some v => if level ≤ v then closeupvals L level (g.closeupval L uv v rest) rest else g
      | none => g

/-- `luaF_close` -/
def luaFClose (L : Addr) (level : Nat) : GlobalState := closeupvals L level g (g.openupval L)

/-! ## Strings -/

/-- The bytes of a string. -/
def content (ts : Addr) : Option Bytes :=
  match g.object ts with
  | some (.string s) => some s
  | _ => none

/-- The bucket of a string, in a string table of some size. -/
def bucket (size : Nat) (s : Bytes) : Nat := lmod (strhash s).toNat size

/-- Chain a string before the others of its bucket. -/
def chain (hash : List (List Addr)) (i : Nat) (ts : Addr) : List (List Addr) :=
  hash.modify i (ts :: ·)

/-- `luaS_resize` -/
def luaSResize (newsize : Nat) : GlobalState :=
  if g.gcstate = .sweepstring then g
  else
    { g with
      strt := g.strt.flatten.foldl
        (fun hash p => chain hash (bucket newsize ((g.content p).getD [])) p)
        (List.replicate newsize []) }

/-- `newlstr`, at a new address. -/
def newlstr (str : Bytes) (new : Addr) : GlobalState :=
  let g := g.setObject new (.string str)
  let g := g.setMarked new (Marked.luaCWhite g.currentwhite)
  let g := { g with strt := chain g.strt (bucket g.strt.length str) new, nuse := g.nuse + 1 }
  if g.strt.length < g.nuse ∧ g.strt.length ≤ (2 ^ 31 - 1 - 2) / 2 then
    g.luaSResize (g.strt.length * 2)
  else g

/-- `luaS_newlstr`, with the address of a new string. -/
def luaSNewlstr (str : Bytes) (new : Addr) : GlobalState × Addr :=
  match (g.strt.getD (bucket g.strt.length str) []).find? fun o => g.content o = some str with
  | some o => (if g.isdead o then g.changewhite o else g, o)
  | none => (g.newlstr str new, new)

/-- Insert after an element of a list. -/
def insertAfter (a o : Addr) (l : List Addr) : List Addr :=
  l.flatMap fun b => if b = a then [b, o] else [b]

/-- Link a userdata after the main thread. -/
def linkudata (o : Addr) : GlobalState :=
  { g with rootgc := insertAfter g.mainthread o g.rootgc }

/-- `luaS_newudata`, at a new address. -/
def luaSNewudata (e new : Addr) : GlobalState :=
  ((g.setObject new (.userdata { metatable := none, env := e })).setMarked new
    (Marked.luaCWhite g.currentwhite)).linkudata new

end GlobalState

end LuaScript.GC
