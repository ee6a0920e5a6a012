import LuaScript.LFunc

/-!
# The garbage collector

The cycle of `lgc.c`: the roots, the atomic end of a marking, the sweep of strings and objects, and
the finalizers, as the steps of `singlestep`.  When the steps are taken depends on amounts of
memory, which are not modelled: a step may be taken at any time.
-/

namespace LuaScript.GC

namespace GlobalState

variable (g : GlobalState)

/-! ## Roots -/

/-- `markmt` -/
def markmt : GlobalState := g.mt.foldl markpointer g

/-- `markroot` -/
def markroot : GlobalState :=
  let g := { g with gray := [], grayagain := [], weak := [] }
  let g := g.markobject g.mainthread
  let g := match g.object g.mainthread with
    | some (.thread th) => g.markvalue th.gt
    | _ => g
  let g := (g.markvalue g.registry).markmt
  { g with gcstate := .propagate }

/-- One round of `remarkupvals`. -/
def remarkupval (uv : Addr) : GlobalState :=
  match g.object uv with
  | some (.upval (.stack th level)) =>
      if g.isgray uv then g.markvalue (g.slot th level) else g
  | _ => g

/-- `remarkupvals` -/
def remarkupvals : GlobalState := g.uvhead.foldl remarkupval g

/-! ## Finalizers -/

/-- The objects after an element of a list. -/
def after (a : Addr) (l : List Addr) : List Addr := (l.dropWhile (· ≠ a)).tail

section After

variable {a o : Addr} {pre post l : List Addr}

theorem after_append (outside : a ∉ pre) : after a (pre ++ a :: post) = post := by
  induction pre with
  | nil => simp [after]
  | cons b pre induction =>
      have ne : b ≠ a := fun same => outside (same ▸ List.mem_cons_self)
      have rest := induction fun member => outside (List.mem_cons_of_mem b member)
      simpa [after, List.dropWhile_cons, ne] using rest

/-- A list around one of its elements. -/
theorem exists_after (member : a ∈ l) : ∃ pre, l = pre ++ a :: after a l ∧ a ∉ pre := by
  obtain ⟨pre, post, rfl, outside⟩ := List.eq_append_cons_of_mem member
  exact ⟨pre, by rw [after_append outside], outside⟩

theorem mem_after_erase (nodup : l.Nodup) (member : a ∈ l) (ne : o ≠ a) (p : Addr) :
    p ∈ after a (l.erase o) ↔ p ∈ after a l ∧ p ≠ o := by
  obtain ⟨pre, split, outside⟩ := exists_after member
  generalize after a l = post at split ⊢
  subst split
  have nodup_post := (List.nodup_cons.mp (List.nodup_append.mp nodup).2.1).2
  by_cases early : o ∈ pre
  · rw [List.erase_append_left _ early, after_append fun again => outside (List.mem_of_mem_erase again)]
    refine ⟨fun late => ⟨late, ?_⟩, And.left⟩
    rintro rfl
    exact (List.nodup_append'.mp nodup).2.2 early (List.mem_cons_of_mem a late)
  · rw [List.erase_append_right _ early, List.erase_cons_tail (by simpa using ne.symm),
      after_append outside, nodup_post.mem_erase_iff, and_comm]

theorem not_mem_after (nodup : l.Nodup) (member : a ∈ l) : a ∉ after a l := by
  obtain ⟨pre, split, outside⟩ := exists_after member
  rw [split] at nodup
  exact (List.nodup_cons.mp (List.nodup_append.mp nodup).2.1).1

end After

/-- `isfinalized` -/
def isfinalized (u : Addr) : Bool := (g.marked u).isfinalized

def markfinalized (u : Addr) : GlobalState := g.setMarked u (g.marked u).markfinalized

/-- The metatable of a userdata. -/
def udatamt (u : Addr) : Option Addr :=
  match g.object u with
  | some (.userdata u) => u.metatable
  | _ => none

/-- The loop of `luaC_separateudata` over the userdata of the root list. -/
def separate (all : Bool) : GlobalState → List Addr → GlobalState
  | g, [] => g
  | g, curr :: rest =>
      if !(g.iswhite curr || all) || g.isfinalized curr then separate all g rest
      else if g.gfasttm (g.udatamt curr) g.tmGc = .nil then
        -- It does not need finalization.
        separate all (g.markfinalized curr) rest
      else
        let g := g.markfinalized curr
        separate all
          { g with rootgc := g.rootgc.erase curr, tmudata := g.tmudata ++ [curr] } rest

/-- `luaC_separateudata` -/
def luaCSeparateudata (all : Bool) : GlobalState :=
  separate all g (after g.mainthread g.rootgc)

/-- `marktmu` -/
def marktmu : GlobalState :=
  g.tmudata.foldl (fun g u => reallymarkobject markdepth (g.makewhite u) u) g

/-- Write a value on top of the stack of a thread. -/
def push (L : Addr) (v : TValue) : GlobalState :=
  match g.object L with
  | some (.thread th) =>
      g.setObject L (.thread
        { th with stack := th.stack.take th.top ++ v :: th.stack.drop (th.top + 1), top := th.top + 1 })
  | _ => g

/-- `GCTM`, up to the call of the finalizer. -/
def GCTM : GlobalState :=
  match g.tmudata with
  | [] => g
  | o :: rest =>
      let g := ({ g with tmudata := rest }.linkudata o).makewhite o
      let tm := g.gfasttm (g.udatamt o) g.tmGc
      if tm = .nil then g else (g.push g.running tm).push g.running (.userdata o)

/-! ## Weak tables -/

/-- `iscleared` -/
def iscleared (o : TValue) (iskey : Bool) : GlobalState × Bool :=
  match o with
  | .string s => (g.white2gray s, false)
  | .userdata u => (g, g.iswhite u || (!iskey && g.isfinalized u))
  | o =>
      match o.ref with
      | some (_, a) => (g, g.iswhite a)
      | none => (g, false)

end GlobalState

/-- An entry without its value and without its key (`removeentry`). -/
def Node.remove (n : Node) : Node :=
  removeentry { n with val := .nil, buried := fun _ => rfl } rfl

namespace GlobalState

variable (g : GlobalState)

/-- Clear a value of the array part. -/
def clearvalue (o : TValue) : GlobalState × TValue :=
  let (g, cleared) := g.iscleared o false
  (g, if cleared then .nil else o)

/-- Clear an entry of the hash part. -/
def clearnode (n : Node) : GlobalState × Node :=
  if n.val = .nil then (g, n)
  else
    let (g, cleared) := g.iscleared n.key true
    if cleared then (g, n.remove)
    else
      let (g, cleared) := g.iscleared n.val false
      (g, if cleared then n.remove else n)

/-- Change the elements of a list from its end, with a state. -/
def changeback {α : Type} (f : GlobalState → α → GlobalState × α) :
    GlobalState → List α → GlobalState × List α
  | g, [] => (g, [])
  | g, a :: rest =>
      let (g, rest) := changeback f g rest
      let (g, a) := f g a
      (g, a :: rest)

/-- One round of `cleartable`. -/
def clear (o : Addr) : GlobalState :=
  match g.object o with
  | some (.table h) =>
      let (g, array) :=
        if g.marked o &&& Marked.valueweak ≠ 0 then changeback clearvalue g h.array else (g, h.array)
      let (g, node) := changeback clearnode g h.node
      g.setObject o (.table { h with array, node })
  | _ => g

/-- `cleartable` -/
def cleartable (l : List Addr) : GlobalState := l.foldl clear g

/-! ## The atomic step -/

/-- `atomic`, for the objects caught by `remarkupvals`. -/
def remarkopen : GlobalState := g.remarkupvals.propagateall

/-- `atomic`, for the weak tables, the running thread and the metatables of the basic types. -/
def remarkweak : GlobalState :=
  let g := { g with gray := g.weak, weak := [] }
  (g.markobject g.running).markmt.propagateall

/-- `atomic`, for the objects caught by barriers. -/
def remarkagain : GlobalState := { g with gray := g.grayagain, grayagain := [] }.propagateall

/-- `atomic`, for the userdata to be finalized. -/
def remarkudata : GlobalState := (g.luaCSeparateudata false).marktmu.propagateall

/-- The end of the marking in `atomic`. -/
def remark : GlobalState := g.remarkopen.remarkweak.remarkagain.remarkudata

/-- The end of `atomic`: the white changes. -/
def flip : GlobalState :=
  { g with
    currentwhite := Marked.otherwhite g.currentwhite
    sweepstrgc := 0
    sweepgc := none
    gcstate := .sweepstring }

/-- `atomic` -/
def atomic : GlobalState := (g.remark.cleartable g.remark.weak).flip

/-! ## Sweeping -/

/-- `freeobj` -/
def freeobj (o : Addr) : GlobalState :=
  match g.object o with
  | some (.thread _) => (g.luaFClose o 0).free o
  | some (.string _) => { g.free o with nuse := g.nuse - 1 }
  | some (.upval _) => g.luaFFreeupval o
  | _ => g.free o

/-- The condition under which `sweeplist` keeps an object. -/
def kept (curr : Addr) : Bool := (g.marked curr).kept (Marked.otherwhite g.currentwhite)

/-- One object of `sweeplist`, which is unlinked before it is freed. -/
def sweepcurr (unlink : GlobalState → Addr → GlobalState) (g : GlobalState) (curr : Addr) :
    GlobalState :=
  if g.kept curr then g.makewhite curr else (unlink g curr).freeobj curr

/-- `sweepwholelist`, for lists without threads. -/
def sweepwholelist (unlink : GlobalState → Addr → GlobalState) (l : List Addr) : GlobalState :=
  l.foldl (sweepcurr unlink) g

/-- Unlink a string from a bucket. -/
def unlinkstring (i : Nat) (g : GlobalState) (ts : Addr) : GlobalState :=
  { g with strt := g.strt.modify i fun bucket => bucket.erase ts }

/-- Unlink an open upvalue from the list of its thread. -/
def unlinkopen (L : Addr) (g : GlobalState) (uv : Addr) : GlobalState :=
  g.setOpenupval L ((g.openupval L).erase uv)

/-- Unlink an object from the root list. -/
def unlinkroot (g : GlobalState) (o : Addr) : GlobalState :=
  { g with rootgc := g.rootgc.erase o }

/-- The objects of the root list that are still to be swept. -/
def pending : List Addr :=
  match g.sweepgc with
  | none => g.rootgc
  | some a => after a g.rootgc

/-- One round of `sweeplist` on the root list. -/
def sweepobject : GlobalState :=
  match g.pending with
  | [] => g
  | curr :: _ =>
      -- The list of open upvalues is empty for objects that are not threads.
      let g := g.sweepwholelist (unlinkopen curr) (g.openupval curr)
      let g' := sweepcurr unlinkroot g curr
      if g.kept curr then { g' with sweepgc := some curr } else g'

/-- `sweeplist` on the root list. -/
def sweeplist (count : Nat) : GlobalState := sweepobject^[count] g

/-- `MINSTRTABSIZE` -/
def minstrtabsize : Nat := 32

/-- `checkSizes`, without the buffer. -/
def checkSizes : GlobalState :=
  if g.nuse < g.strt.length / 4 ∧ minstrtabsize * 2 < g.strt.length then
    g.luaSResize (g.strt.length / 2)
  else g

/-- `GCSWEEPMAX` -/
def gcsweepmax : Nat := 40

/-- `singlestep`, without the amount of work. -/
def singlestep : GlobalState :=
  match g.gcstate with
  | .pause => g.markroot
  | .propagate =>
      match g.gray with
      | _ :: _ => g.propagatemark
      | [] => g.atomic
  | .sweepstring =>
      let i := g.sweepstrgc
      let g := g.sweepwholelist (unlinkstring i) (g.strt.getD i [])
      let g := { g with sweepstrgc := i + 1 }
      if g.strt.length ≤ g.sweepstrgc then { g with gcstate := .sweep } else g
  | .sweep =>
      let g := g.sweeplist gcsweepmax
      match g.pending with
      | [] => { g.checkSizes with gcstate := .finalize }
      | _ :: _ => g
  | .finalize =>
      match g.tmudata with
      | _ :: _ => g.GCTM
      | [] => { g with gcstate := .pause }

/-- The beginning of `luaC_fullgc`: an unfinished marking is given up. -/
def abandon : GlobalState :=
  match g.gcstate with
  | .pause | .propagate =>
      { g with
        sweepstrgc := 0
        sweepgc := none
        gray := []
        grayagain := []
        weak := []
        gcstate := .sweepstring }
  | _ => g

end GlobalState

end LuaScript.GC
