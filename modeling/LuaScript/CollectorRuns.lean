import Mathlib.Data.List.Pairwise
import LuaScript.Upvalues

/-!
# Runs of a program with the collector

The program and the collector take steps in any order, from the state that `lua_newstate` makes.
Whatever the order, what the program can read is never freed.
-/

namespace LuaScript.GC

open Function

/-! ## The first state -/

/-- `lua_newstate`, with the two strings that the collector uses.  The main thread, the table of
globals and the registry are the objects 0, 1 and 2. -/
def newstate : GlobalState where
  object :=
    let table : GCObject :=
      .table { metatable := none, array := [], node := List.replicate 2 Node.empty }
    let object := update (fun _ => none) 0 (some (.thread
      { gt := .table 1
        stack := List.replicate GlobalState.basicstack .nil
        top := 1
        ci := [{ top := 1 + GlobalState.minstack, isLua := false }]
        openupval := [] }))
    let object := update (update object 1 (some table)) 2 (some table)
    -- "__gc" and "__mode"
    update (update object 3 (some (.string [95, 95, 103, 99]))) 4
      (some (.string [95, 95, 109, 111, 100, 101]))
  marked o :=
    if o = 0 then 0b1100001#8 else if o = 3 ∨ o = 4 then 0b100001#8 else 0b1#8
  strt :=
    let hash := List.replicate GlobalState.minstrtabsize []
    let hash := GlobalState.chain hash (GlobalState.bucket hash.length [95, 95, 103, 99]) 3
    GlobalState.chain hash (GlobalState.bucket hash.length [95, 95, 109, 111, 100, 101]) 4
  nuse := 2
  currentwhite := 0b100001#8
  gcstate := .pause
  sweepstrgc := 0
  rootgc := [2, 1, 0]
  sweepgc := none
  gray := []
  grayagain := []
  weak := []
  tmudata := []
  registry := .table 2
  mainthread := 0
  uvhead := []
  mt := List.replicate 9 none
  tmMode := 4
  tmGc := 3
  running := 0

/-! ## Steps -/

/-- A reference that the program can come to. -/
inductive Readable (g : GlobalState) : Ref → Prop where
  | root {r : Ref} (root : r ∈ g.roots) : Readable g r
  | read {r r' : Ref} (readable : Readable g r) (reads : r' ∈ g.refs r.2) : Readable g r'

/-- A step of the program or of the collector. -/
inductive Action where
  | newtable (ra : Option Nat) (narray nhash : Nat) (new : Addr)
  | pushcclosure (env : Addr) (upvalue : List TValue) (new : Addr)
  | newthread (new : Addr)
  | newproto (new : Addr)
  | closure (ra env p : Addr) (captures : List Capture) (new : Addr)
  | newuserdata (e new : Addr)
  | pushlstring (str : Bytes) (new : Addr)
  | settable (t : Addr) (h : Table) (v : TValue)
  | setmetatable (obj : TValue) (mt : Option Addr)
  | setfenv (o : TValue) (env : Addr)
  | setupval (uv : Addr) (v : TValue)
  | store (o : Addr) (x : GCObject) (v : TValue)
  /-- Calls, returns and everything else that changes a stack. -/
  | stack (L : Addr) (th : Thread)
  | resume (L : Addr)
  | luaFClose (level : Nat)
  | singlestep
  /-- The beginning of `luaC_fullgc`. -/
  | abandon
  /-- `markroot` in `luaC_fullgc`. -/
  | markroot

namespace GlobalState

variable (g : GlobalState)

/-- What a step does. -/
def step : Action → GlobalState
  | .newtable ra narray nhash new => g.newtable ra narray nhash new
  | .pushcclosure env upvalue new => g.pushcclosure env upvalue new
  | .newthread new => g.newthread new
  | .newproto new => g.newproto new
  | .closure ra env p captures new => g.closure ra env p captures new
  | .newuserdata e new => g.newuserdata e new
  | .pushlstring str new => g.pushlstring str new
  | .settable t h v => g.settable t h v
  | .setmetatable obj mt => g.setmetatable obj mt
  | .setfenv o env => g.setfenv o env
  | .setupval uv v => g.setupval uv v
  | .store o x v => g.store o x v
  | .stack L th => g.setObject L (.thread th)
  | .resume L => { g with running := L }
  | .luaFClose level => g.luaFClose g.running level
  | .singlestep => g.singlestep
  | .abandon => g.abandon
  | .markroot => g.markroot

/-- When a step can be taken: the program only uses what it can read, and new objects get addresses
that are free. -/
def Allowed : Action → Prop
  | .newtable _ _ _ new => g.object new = none
  | .pushcclosure env upvalue new => g.object new = none ∧ Readable g (.table, env) ∧
      ∀ v ∈ upvalue, ∀ r ∈ v.refs, Readable g r
  | .newthread new => g.object new = none
  | .newproto new => g.object new = none
  | .closure _ env p captures new => g.object new = none ∧ Readable g (.table, env) ∧
      Readable g (.proto, p) ∧ (∀ level, .move level new ∉ captures) ∧
        (∀ uv, .getupval uv ∈ captures → Readable g (.upval, uv)) ∧
          (∀ level uv, .move level uv ∈ captures →
            (∃ th, g.object g.running = some (.thread th) ∧ level < th.top) ∧ g.object uv = none) ∧
            captures.Pairwise fun c c' =>
              ∀ level level' uv, c = .move level uv → c' ≠ .move level' uv
  | .newuserdata e new => g.object new = none ∧ Readable g (.table, e)
  | .pushlstring _ new => g.object new = none
  | .settable t h v => ∃ h', g.object t = some (.table h') ∧ h.metatable = h'.metatable ∧
      (∀ r ∈ h.refsWith Node.refs, Readable g r) ∧
        ∀ r ∈ h.refsWith Node.held, r ∈ h'.refsWith Node.held ∨ r ∈ v.refs
  | .setmetatable obj mt => (∀ r ∈ obj.refs, Readable g r) ∧
      ∀ r ∈ pointer .table mt, Readable g r
  | .setfenv o env => (∀ r ∈ o.refs, Readable g r) ∧ Readable g (.table, env)
  | .setupval uv v => Readable g (.upval, uv) ∧ ∀ r ∈ v.refs, Readable g r
  | .store o x v => Readable g (x.tt, o) ∧ (∃ y, g.object o = some y ∧ Alike y x) ∧
      (x.tt ≠ .thread ∧ x.tt ≠ .table) ∧ (∀ r ∈ v.refs, Readable g r) ∧
        ∀ r ∈ (g.setObject o x).refs o, r ∈ g.refs o ∨ r ∈ v.refs
  | .stack L th => ∃ th', g.object L = some (.thread th') ∧ th.openupval = th'.openupval ∧
      th.top ≤ th.stack.length ∧
        (∀ uv level, g.object uv = some (.upval (.stack L level)) → level < th.top) ∧
          ∀ r ∈ th.refs, Readable g r
  | .resume L => Readable g (.thread, L)
  | .luaFClose _ => True
  | .singlestep => True
  | .abandon => True
  | .markroot => g.gcstate = .finalize

end GlobalState

/-- The states that a program and the collector can come to. -/
inductive Reachable : GlobalState → Prop where
  | newstate : Reachable newstate
  | step {g : GlobalState} (reachable : Reachable g) (a : Action) (allowed : g.Allowed a) :
      Reachable (g.step a)

theorem Reachable.singlesteps {g : GlobalState} (reachable : Reachable g) (n : Nat) :
    Reachable (GlobalState.singlestep^[n] g) := by
  induction n with
  | zero => exact reachable
  | succ n induction =>
      rw [iterate_succ_apply']
      exact induction.step .singlestep trivial

/-! ## The invariant of runs -/

section Runs

variable {g : GlobalState} {r : Ref}

/-- What the program can read is allocated, has the right type and is not dead. -/
theorem Readable.has (readable : Readable g r) (invariant : g.Invariant) : g.Has r := by
  induction readable with
  | root root => exact invariant.sound.roots _ root
  | read _ reads has =>
      obtain ⟨x, object⟩ := Option.isSome_iff_exists.mp has.isSome
      exact invariant.sound.refs _ x object has.2 _ reads

theorem GlobalState.Invariant.resume {L : Addr} (invariant : g.Invariant)
    (has : g.Has (.thread, L)) : ({ g with running := L } : GlobalState).Invariant := by
  have formed := invariant.toFormed
  refine ⟨⟨formed.coloured, formed.rooted, formed.interned, formed.opened, formed.names,
    formed.fixed, ⟨formed.sound.refs, fun r member => ?_⟩⟩, GlobalState.phase_iff.mpr ?_⟩
  · have root (root : r ∈ g.roots) : g.Has r := formed.sound.roots r root
    simp only [GlobalState.roots, List.mem_cons] at member root
    rcases member with main | rfl | rest
    · exact root (.inl main)
    · exact has
    · exact root (.inr (.inr rest))
  · rcases GlobalState.phase_iff.mp invariant.phase with ⟨state, marking⟩ | ⟨state, sweeping⟩ |
      ⟨state, clean⟩
    · exact .inl ⟨state, marking.alive, marking.listed, marking.covers, marking.main,
        marking.registry⟩
    · exact .inr (.inl ⟨state, sweeping.start, sweeping.index, sweeping.cursor, sweeping.strings,
        sweeping.swept, sweeping.tmudata⟩)
    · exact .inr (.inr ⟨state, clean.alive, clean.white⟩)

/-- A step keeps the invariant. -/
theorem GlobalState.Invariant.step (invariant : g.Invariant) (a : Action) (allowed : g.Allowed a) :
    (g.step a).Invariant := by
  have has (r : Ref) (readable : Readable g r) : g.Has r := readable.has invariant
  cases a with
  | newtable ra narray nhash new => exact invariant.newtable allowed ra narray nhash
  | pushcclosure env upvalue new =>
      obtain ⟨free, env, upvalues⟩ := allowed
      exact invariant.pushcclosure free (has _ env) fun v value r member =>
        has r (upvalues v value r member)
  | newthread new => exact invariant.newthread allowed
  | newproto new => exact invariant.newproto allowed
  | closure ra env p captures new =>
      obtain ⟨free, env, p, unused, ups, moves, distinct⟩ := allowed
      obtain ⟨th, thread⟩ := invariant.running.thread
      refine invariant.closure thread ⟨fun uv member => has _ (ups uv member),
        fun level uv member => ?_, distinct⟩ (has _ env) (has _ p) free unused
      obtain ⟨⟨th', thread', below⟩, free⟩ := moves level uv member
      cases thread.symm.trans thread'
      exact ⟨below, free⟩
  | newuserdata e new => exact invariant.newuserdata allowed.1 (has _ allowed.2)
  | pushlstring str new => exact invariant.pushlstring allowed
  | settable t h v =>
      obtain ⟨h', table, -, refs, held⟩ := allowed
      exact invariant.settable table (fun r member => has r (refs r member)) held
  | setmetatable obj mt =>
      exact invariant.setmetatable (fun r member => has r (allowed.1 r member))
        fun r member => has r (allowed.2 r member)
  | setfenv o env =>
      exact invariant.setfenv (fun r member => has r (allowed.1 r member)) (has _ allowed.2)
  | setupval uv v =>
      exact invariant.setupval (has _ allowed.1) fun r member => has r (allowed.2 r member)
  | store o x v =>
      obtain ⟨readable, ⟨y, object, alike⟩, kind, new, refs⟩ := allowed
      rw [alike.tt] at kind
      exact invariant.store alike object kind (has _ readable).2
        (fun r member => has r (new r member)) refs
  | stack L th =>
      obtain ⟨th', thread, openupval, top, levels, refs⟩ := allowed
      exact invariant.setThread thread openupval top levels fun r member => has r (refs r member)
  | resume L => exact invariant.resume (has _ allowed)
  | luaFClose level =>
      obtain ⟨th, thread⟩ := invariant.running.thread
      have closed := (invariant.closeupvals thread level).1
      rw [← GlobalState.openupval_of_thread thread] at closed
      exact closed
  | singlestep => exact invariant.singlestep
  | abandon => exact invariant.abandon
  | markroot => exact (invariant.markroot (invariant.is_clean (.inr allowed))).1

/-- The objects of the first state. -/
theorem newstate_cases {o : Addr} {x : GCObject} (object : newstate.object o = some x) :
    (o = 0 ∧ ∃ th, x = .thread th ∧ th.openupval = [] ∧ th.top ≤ th.stack.length ∧
      ∀ r ∈ th.refs, r = (.table, 1)) ∨
      ((o = 1 ∨ o = 2) ∧ ∃ h : Table, x = .table h ∧ h.refsWith Node.refs = []) ∨
        ((o = 3 ∨ o = 4) ∧ ∃ s, x = .string s) := by
  match o with
  | 0 =>
      cases object
      exact .inl ⟨rfl, _, rfl, rfl, by decide, by decide⟩
  | 1 =>
      cases object
      exact .inr (.inl ⟨.inl rfl, _, rfl, rfl⟩)
  | 2 =>
      cases object
      exact .inr (.inl ⟨.inr rfl, _, rfl, rfl⟩)
  | 3 =>
      cases object
      exact .inr (.inr ⟨.inl rfl, _, rfl⟩)
  | 4 =>
      cases object
      exact .inr (.inr ⟨.inr rfl, _, rfl⟩)
  | n + 5 => simp [newstate] at object

theorem newstate_interned : Interned newstate.object newstate.strt newstate.nuse := by
  set object : Addr → Option GCObject := fun o => if o < 3 then newstate.object o else none
  have none (o : Addr) (s : Bytes) : object o ≠ some (.string s) := by
    intro string
    simp only [object] at string
    split_ifs at string with low
    rcases newstate_cases string with ⟨-, th, same, -⟩ | ⟨-, h, same, -⟩ | ⟨rfl | rfl, -⟩
    · cases same
    · cases same
    · exact absurd low (by decide)
    · exact absurd low (by decide)
  have first : Interned object (List.replicate GlobalState.minstrtabsize []) 0 := by
    refine ⟨by simp, fun o => ?_, fun o s string => absurd string (none o s),
      fun o o' s string => absurd string (none o s), ⟨5, rfl⟩, by simp⟩
    constructor
    · intro member
      simp at member
    · rintro ⟨s, string⟩
      exact absurd string (none o s)
  have second : Interned (update object 3 (some (.string [95, 95, 103, 99]))) _ _ :=
    first.chain rfl fun p => none p _
  have third : Interned (update (update object 3 (some (.string [95, 95, 103, 99]))) 4
      (some (.string [95, 95, 109, 111, 100, 101]))) _ _ := second.chain rfl fun p same => by
    rcases eq_or_ne p 3 with rfl | ne
    · cases same
    · rw [update_of_ne ne] at same
      exact none p _ same
  have same : newstate.object = update (update object 3 (some (.string [95, 95, 103, 99]))) 4
      (some (.string [95, 95, 109, 111, 100, 101])) := by
    funext o
    match o with
    | 0 => rfl
    | 1 => rfl
    | 2 => rfl
    | 3 => rfl
    | 4 => rfl
    | n + 5 => simp [newstate, object]
  rw [same]
  exact third

theorem newstate_marked (o : Addr) : newstate.marked o = 0b1100001#8 ∧ o = 0 ∨
    newstate.marked o = 0b100001#8 ∧ (o = 3 ∨ o = 4) ∨ newstate.marked o = 0b1#8 := by
  simp only [newstate]
  split_ifs with main string
  · exact .inl ⟨rfl, main⟩
  · exact .inr (.inl ⟨rfl, string⟩)
  · exact .inr (.inr rfl)

theorem newstate_white (o : Addr) : (newstate.marked o).iswhite ∧ (newstate.marked o).Proper ∧
    (newstate.marked o).isblack = false ∧ newstate.isdead o = false := by
  rw [GlobalState.isdead]
  rcases newstate_marked o with ⟨same, -⟩ | ⟨same, -⟩ | same
  · rw [same]
    decide
  · rw [same]
    decide
  · rw [same]
    decide

/-- The state that `lua_newstate` makes. -/
theorem newstate_invariant : newstate.Invariant := by
  have stack (o L : Addr) (level : Nat) : newstate.object o ≠ some (.upval (.stack L level)) := by
    intro object
    rcases newstate_cases object with ⟨-, th, same, -⟩ | ⟨-, h, same, -⟩ | ⟨-, s, same⟩ <;>
      cases same
  have udata (o : Addr) (u : Udata) : newstate.object o ≠ some (.userdata u) := by
    intro object
    rcases newstate_cases object with ⟨-, th, same, -⟩ | ⟨-, h, same, -⟩ | ⟨-, s, same⟩ <;>
      cases same
  have thread (o : Addr) (th : Thread) (object : newstate.object o = some (.thread th)) :
      th.openupval = [] ∧ th.top ≤ th.stack.length := by
    rcases newstate_cases object with ⟨-, th, same, empty, top, -⟩ | ⟨-, h, same, -⟩ | ⟨-, s, same⟩
    · cases same
      exact ⟨empty, top⟩
    · cases same
    · cases same
  have has (tag : Tag) (o : Addr) (typed : newstate.tt o = some tag) : newstate.Has (tag, o) :=
    ⟨typed, (newstate_white o).2.2.2⟩
  refine ⟨⟨⟨.inl rfl, fun o x object => ⟨(newstate_white o).2.1, fun black => ?_, fun gray => ?_⟩,
    fun o _ => (newstate_white o).1⟩, ⟨by decide, fun o => ⟨fun member => ?_, ?_⟩,
      fun o member => absurd member List.not_mem_nil, by decide, fun o => ⟨fun member => ?_, ?_⟩⟩,
      newstate_interned, ⟨fun o th object => (thread o th object).2,
        fun uv L level object => absurd object (stack uv L level),
        fun L th uv object member => ?_, fun L th object => ?_, List.nodup_nil,
        fun uv => ⟨fun member => absurd member List.not_mem_nil, ?_⟩⟩, fun ts member => ?_,
      fun o x object fixed => ?_, ⟨fun o x object _ r member => ?_, fun r member => ?_⟩⟩,
    ⟨fun o x _ => (newstate_white o).2.2.2, fun o x _ _ => (newstate_white o).1⟩⟩
  · rw [(newstate_white o).2.2.1] at black
    cases black
  · simp [Marked.isgray, (newstate_white o).1] at gray
  · have member : o ∈ [2, 1, 0] := member
    simp only [List.mem_cons, List.not_mem_nil, or_false] at member
    rcases member with rfl | rfl | rfl
    · exact ⟨_, rfl, rfl⟩
    · exact ⟨_, rfl, rfl⟩
    · exact ⟨_, rfl, rfl⟩
  · rintro ⟨x, object, rooted⟩
    show o ∈ [2, 1, 0]
    rcases newstate_cases object with ⟨rfl, -⟩ | ⟨rfl | rfl, -⟩ | ⟨-, s, rfl⟩
    · decide
    · decide
    · decide
    · cases rooted
  · exact absurd member List.not_mem_nil
  · rintro ⟨-, u, object⟩
    exact absurd object (udata o u)
  · rw [(thread L th object).1] at member
    exact absurd member List.not_mem_nil
  · rw [(thread L th object).1]
    exact List.Pairwise.nil
  · rintro ⟨L, level, object⟩
    exact absurd object (stack uv L level)
  · have member : ts ∈ [4, 3] := member
    simp only [List.mem_cons, List.not_mem_nil, or_false] at member
    rcases member with rfl | rfl
    · exact ⟨⟨_, rfl⟩, rfl⟩
    · exact ⟨⟨_, rfl⟩, rfl⟩
  · rcases newstate_marked o with ⟨-, main⟩ | ⟨-, rfl | rfl⟩ | same
    · exact .inr main
    · cases object
      exact .inl rfl
    · cases object
      exact .inl rfl
    · rw [same] at fixed
      cases fixed
  · rw [GlobalState.refs, object] at member
    rcases newstate_cases object with ⟨-, th, rfl, -, -, refs⟩ | ⟨-, h, rfl, empty⟩ | ⟨-, s, rfl⟩
    · rw [refs r member]
      exact has .table 1 rfl
    · have member : r ∈ h.refsWith Node.refs := member
      rw [empty] at member
      exact absurd member List.not_mem_nil
    · exact absurd member List.not_mem_nil
  · have member : r ∈ [(Tag.thread, 0), (Tag.thread, 0), (Tag.table, 2)] := member
    simp only [List.mem_cons, List.not_mem_nil, or_false] at member
    rcases member with rfl | rfl | rfl
    · exact has .thread 0 rfl
    · exact has .thread 0 rfl
    · exact has .table 2 rfl

/-- The invariant holds in every state of every run. -/
theorem Reachable.invariant (reachable : Reachable g) : g.Invariant := by
  induction reachable with
  | newstate => exact newstate_invariant
  | step _ a allowed invariant => exact invariant.step a allowed

/-! ## Results -/

/-- A run that marks the registry, whose metatable is a new table. -/
theorem reachable_marked : Reachable ((((newstate.step (.newtable none 0 2 5)).step
    (.setmetatable (.table 2) (some 5))).step .singlestep).step .singlestep) := by
  have created : Reachable (newstate.step (.newtable none 0 2 5)) :=
    Reachable.newstate.step (.newtable none 0 2 5) rfl
  have main : Readable (newstate.step (.newtable none 0 2 5)) (.thread, 0) :=
    .root List.mem_cons_self
  have table : Readable (newstate.step (.newtable none 0 2 5)) (.table, 5) := main.read (by decide)
  have stored := created.step (.setmetatable (.table 2) (some 5)) ⟨fun r member => ?_,
    fun r member => ?_⟩
  · exact (stored.step .singlestep trivial).step .singlestep trivial
  · rw [List.mem_singleton.mp (show r ∈ [(Tag.table, 2)] from member)]
    exact .root (by decide)
  · rw [List.mem_singleton.mp (show r ∈ [(Tag.table, 5)] from member)]
    exact table

/-- Two strings are one object exactly when they have the same bytes. -/
theorem strings_are_interned (g : GlobalState) (reachable : Reachable g) (o o' : Addr)
    (s s' : Bytes) (string : g.object o = some (.string s))
    (string' : g.object o' = some (.string s')) : o = o' ↔ s = s' := by
  constructor
  · rintro rfl
    cases string.symm.trans string'
    rfl
  · rintro rfl
    exact reachable.invariant.interned.unique o o' s string string'

/-- A run that pushes a string, sweeps three buckets, pushes the same string again and then another
one. -/
theorem reachable_pushed : Reachable (((GlobalState.singlestep^[8]
    (newstate.step (.pushlstring [97] 5))).step (.pushlstring [97] 6)).step
      (.pushlstring [98] 6)) :=
  (((Reachable.newstate.step (.pushlstring [97] 5) rfl).singlesteps 8).step
    (.pushlstring [97] 6) rfl).step (.pushlstring [98] 6) rfl

theorem strings_are_interned_names :
    (GlobalState.singlestep^[8] (newstate.step (.pushlstring [97] 5))).gcstate = .sweepstring ∧
      ((5 : Addr) = 6 ↔ ([97] : Bytes) = [98]) :=
  ⟨rfl, strings_are_interned _ reachable_pushed 5 6 _ _ rfl rfl⟩

/-- A slot has one open upvalue at most, and `luaF_findupval` finds it: all closures over the slot
share it. -/
theorem open_upvalues_are_shared (g : GlobalState) (reachable : Reachable g) (uv L level new : Addr)
    (is_open : g.object uv = some (.upval (.stack L level))) :
    (g.luaFFindupval L level new).2 = uv := by
  have opened := reachable.invariant.opened
  obtain ⟨th, thread, member⟩ := opened.mem uv L level is_open
  have sorted := searchupval_sorted opened thread
  have known := searchupval_known opened thread
  rw [GlobalState.luaFFindupval, GlobalState.openupval_of_thread thread]
  rcases result : g.searchupval level th.openupval with ⟨passed, found, rest⟩
  cases found with
  | some p =>
      obtain ⟨member_p, same⟩ := searchupval_some result
      have level_uv : g.level uv = some level := GlobalState.level_of_stack is_open
      have apart : th.openupval.Pairwise fun p q => g.level p ≠ g.level q := by
        refine sorted.imp_of_mem fun {p q} is_p _ less equal => ?_
        obtain ⟨v, is_v⟩ := Option.isSome_iff_exists.mp (known p is_p)
        exact absurd (less v v is_v (equal ▸ is_v)) (lt_irrefl v)
      have alone : p = uv := by
        by_contra ne
        have symmetric : Std.Symm fun p q => g.level p ≠ g.level q := ⟨fun _ _ => Ne.symm⟩
        exact apart.forall member_p member ne (same.trans level_uv.symm)
      dsimp only
      exact alone
  | none =>
      obtain ⟨split, above, under⟩ := searchupval_none sorted known result
      have level_uv : g.level uv = some level := GlobalState.level_of_stack is_open
      rw [← split] at member
      rcases List.mem_append.mp member with early | late
      · exact absurd (above uv early level level_uv) (lt_irrefl level)
      · exact absurd (under uv late level level_uv) (lt_irrefl level)

/-- A run that creates a function with an upvalue. -/
theorem reachable_closure : Reachable ((newstate.step (.newproto 5)).step
    (.closure 1 1 5 [.move 0 6] 7)) := by
  have proto : Reachable (newstate.step (.newproto 5)) := Reachable.newstate.step (.newproto 5) rfl
  have main : Readable (newstate.step (.newproto 5)) (.thread, 0) := .root List.mem_cons_self
  refine proto.step (.closure 1 1 5 [.move 0 6] 7) ⟨rfl, main.read (by decide),
    main.read (by decide), by simp, by simp, fun level uv member => ?_, by simp⟩
  simp only [List.mem_singleton, Capture.move.injEq] at member
  obtain ⟨rfl, rfl⟩ := member
  exact ⟨⟨_, rfl, by decide⟩, rfl⟩

theorem open_upvalues_are_shared_main :
    (((newstate.step (.newproto 5)).step (.closure 1 1 5 [.move 0 6] 7)).luaFFindupval 0 0 8).2 =
      6 :=
  open_upvalues_are_shared _ reachable_closure 6 0 0 8 rfl

/-- `luaF_close` frees the slots from a level on for other values: a function reads what it read
before through each of its upvalues, and none of them is left at the level or above it. -/
theorem closed_upvalues_keep_values (g : GlobalState) (reachable : Reachable g) (L : Addr)
    (th : Thread) (thread : g.object L = some (.thread th)) (uv : Addr) (v : UpVal)
    (upvalue : g.object uv = some (.upval v)) (alive : g.isdead uv = false) (bound level : Nat)
    (above : bound ≤ level) :
    (g.luaFClose L bound).getupval uv = g.getupval uv ∧
      (g.luaFClose L bound).object uv ≠ some (.upval (.stack L level)) := by
  have invariant := reachable.invariant
  refine ⟨invariant.getupval_luaFClose thread bound upvalue alive, fun is_open => ?_⟩
  exact absurd (invariant.level_luaFClose thread bound is_open) (Nat.not_lt.mpr above)

theorem closed_upvalues_keep_values_main :
    (((newstate.step (.newproto 5)).step (.closure 1 1 5 [.move 0 6] 7)).luaFClose 0 0).getupval 6 =
        ((newstate.step (.newproto 5)).step (.closure 1 1 5 [.move 0 6] 7)).getupval 6 ∧
      (((newstate.step (.newproto 5)).step (.closure 1 1 5 [.move 0 6] 7)).luaFClose 0 0).object 6 ≠
        some (.upval (.stack 0 0)) :=
  closed_upvalues_keep_values _ reachable_closure 0 _ rfl 6 _ rfl rfl 0 0 le_rfl

end Runs

end LuaScript.GC
