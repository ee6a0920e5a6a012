import LuaScript.Propagation

/-!
# Invariants of the collector

What holds of the global state between any two steps of the program and of the collector.  The lists
of the state hold the objects that they should, colours and types are as they should be, and then one
condition for each state of the collector: a marking in progress is complete up to the objects that
still wait, and a sweep has left only live objects behind it.
-/

namespace LuaScript.GC

open Function

/-! ## Kinds of objects -/

namespace GCObject

/-- The object is in the root list, or waits for its finalizer. -/
def rooted : GCObject → Bool
  | .string _ => false
  | .upval (.stack _ _) => false
  | _ => true

def mayBlack : GCObject → Bool
  | .string _ => false
  | .thread _ => false
  | .upval (.stack _ _) => false
  | _ => true

def mayGray : GCObject → Bool
  | .userdata _ => false
  | .upval (.own _) => false
  | _ => true

/-- The colours that an object can have. -/
structure Coloured (x : GCObject) (m : Marked) : Prop where
  proper : m.Proper
  black : m.isblack → x.mayBlack
  gray : m.isgray → x.mayGray

end GCObject

/-! ## Structure of the state -/

/-- All objects have proper colours, and no free address has been found. -/
structure Coloured (object : Addr → Option GCObject) (marked : Addr → Marked)
    (currentwhite : Marked) : Prop where
  white : currentwhite.White
  each : ∀ o x, object o = some x → x.Coloured (marked o)
  free : ∀ o, object o = none → (marked o).iswhite

/-- The root list and the list of userdata to be finalized hold the objects that are swept there. -/
structure Rooted (object : Addr → Option GCObject) (rootgc tmudata : List Addr)
    (mainthread : Addr) : Prop where
  nodup : (rootgc ++ tmudata).Nodup
  mem_iff : ∀ o, o ∈ rootgc ++ tmudata ↔ ∃ x, object o = some x ∧ x.rooted
  tmudata : ∀ o ∈ tmudata, ∃ u, object o = some (.userdata u)
  main : mainthread ∈ rootgc
  after : ∀ o, o ∈ GlobalState.after mainthread rootgc ↔
    o ∈ rootgc ∧ ∃ u, object o = some (.userdata u)

/-- The string table holds every string once, in its bucket. -/
structure Interned (object : Addr → Option GCObject) (strt : List (List Addr)) (nuse : Nat) :
    Prop where
  nodup : strt.flatten.Nodup
  mem_iff : ∀ o, o ∈ strt.flatten ↔ ∃ s, object o = some (.string s)
  bucket : ∀ o s, object o = some (.string s) →
    o ∈ strt.getD (GlobalState.bucket strt.length s) []
  unique : ∀ o o' s, object o = some (.string s) → object o' = some (.string s) → o = o'
  size : ∃ k, strt.length = 2 ^ k
  nuse : nuse = strt.flatten.length

/-- The lists of open upvalues. -/
structure Opened (object : Addr → Option GCObject) (uvhead : List Addr) : Prop where
  top : ∀ o th, object o = some (.thread th) → th.top ≤ th.stack.length
  mem : ∀ uv L level, object uv = some (.upval (.stack L level)) →
    ∃ th, object L = some (.thread th) ∧ uv ∈ th.openupval
  level : ∀ L th uv, object L = some (.thread th) → uv ∈ th.openupval →
    ∃ level, object uv = some (.upval (.stack L level)) ∧ level < th.top
  sorted : ∀ L th, object L = some (.thread th) →
    th.openupval.Pairwise fun uv uv' => ∀ level level',
      object uv = some (.upval (.stack L level)) →
        object uv' = some (.upval (.stack L level')) → level' < level
  nodup : uvhead.Nodup
  mem_iff : ∀ uv, uv ∈ uvhead ↔ ∃ L level, object uv = some (.upval (.stack L level))

/-- The lists of gray objects. -/
structure Listed (object : Addr → Option GCObject) (marked : Addr → Marked)
    (gray grayagain weak : List Addr) : Prop where
  nodup : (gray ++ (grayagain ++ weak)).Nodup
  mem : ∀ o ∈ gray ++ (grayagain ++ weak), ∃ x, object o = some x ∧ x.listed ∧ (marked o).isgray
  listed : ∀ o x, object o = some x → x.listed → (marked o).isgray →
    o ∈ gray ++ (grayagain ++ weak)

theorem Opened.nodup_openupval {object : Addr → Option GCObject} {uvhead : List Addr} {L : Addr}
    {th : Thread} (opened : Opened object uvhead) (thread : object L = some (.thread th)) :
    th.openupval.Nodup := by
  refine (opened.sorted L th thread).imp_of_mem fun {a b} member _ less => ?_
  rintro rfl
  obtain ⟨level, is_open, -⟩ := opened.level L th a thread member
  exact absurd (less level level is_open is_open) (lt_irrefl level)

theorem Rooted.of_root {object : Addr → Option GCObject} {rootgc tmudata : List Addr}
    {mainthread o : Addr} (rooted : Rooted object rootgc tmudata mainthread) (root : o ∈ rootgc) :
    ∃ x, object o = some x ∧ x.rooted :=
  (rooted.mem_iff o).mp (List.mem_append_left tmudata root)

/-! ## Reachable objects -/

namespace GlobalState

variable (g : GlobalState)

/-- Where a program starts to read. -/
def roots : List Ref :=
  (.thread, g.mainthread) :: (.thread, g.running) :: (g.registry.refs ++
    (g.mt.flatMap (pointer .table) ++ g.tmudata.map fun u => (.userdata, u)))

/-- The object of a reference exists, has its type and is not dead. -/
def Has (r : Ref) : Prop := g.tt r.2 = some r.1 ∧ g.isdead r.2 = false

theorem Has.isSome {g : GlobalState} {r : Ref} (has : g.Has r) : (g.object r.2).isSome := by
  obtain ⟨x, object, -⟩ := Option.map_eq_some_iff.mp has.1
  exact Option.isSome_of_eq_some object

/-- Objects that are not dead refer to objects that are not dead. -/
structure Sound : Prop where
  refs : ∀ o x, g.object o = some x → g.isdead o = false → ∀ r ∈ g.refs o, g.Has r
  roots : ∀ r ∈ g.roots, g.Has r

/-! ## Marking -/

/-- What has certainly been marked through an object, as edges. -/
def edge (a b : Addr) : Prop := ∃ tag, (tag, b) ∈ g.strong a

/-- The objects that are not white are gray, wait elsewhere, or hold nothing white. -/
def Covers (waiting : Addr → Prop) : Prop :=
  Tricolour.Covered g.edge (fun o => g.iswhite o) fun o => o ∈ g.gray ∨ waiting o

/-- The objects that the atomic step visits, apart from the gray ones: the other lists, the open
upvalues and the userdata to be finalized. -/
def waiting (o : Addr) : Prop :=
  o ∈ g.grayagain ∨ o ∈ g.weak ∨ (g.level o).isSome ∨ o ∈ g.tmudata

/-- No object is dead. -/
def Alive : Prop := ∀ o x, g.object o = some x → g.isdead o = false

/-- A marking is in progress. -/
structure Marking (waiting : Addr → Prop) : Prop where
  alive : g.Alive
  listed : Listed g.object g.marked g.gray g.grayagain g.weak
  covers : g.Covers waiting
  main : g.iswhite g.mainthread = false
  registry : ∀ r ∈ g.registry.refs, g.iswhite r.2 = false

/-! ## Sweeping -/

/-- The object has the current white. -/
def Fresh (o : Addr) : Prop := g.iswhite o ∧ g.isdead o = false

/-- A sweep has come to `sweepgc` and `sweepstrgc`. -/
structure Sweeping : Prop where
  start : g.gcstate = .sweepstring → g.sweepgc = none
  index : g.gcstate = .sweepstring → g.sweepstrgc < g.strt.length
  cursor : ∀ a, g.sweepgc = some a → a ∈ g.rootgc
  strings : ∀ i o, (g.gcstate = .sweepstring → i < g.sweepstrgc) → o ∈ g.strt.getD i [] → g.Fresh o
  swept : ∀ o ∈ g.rootgc, o ∉ g.pending → g.Fresh o ∧ ∀ uv ∈ g.openupval o, g.Fresh uv
  tmudata : ∀ o ∈ g.tmudata, g.isdead o = false

/-- Nothing is marked, apart from the userdata to be finalized. -/
structure Clean : Prop where
  alive : g.Alive
  white : ∀ o x, g.object o = some x → o ∉ g.tmudata → g.iswhite o

/-- The condition of each state of the collector. -/
def Phase : Prop :=
  match g.gcstate with
  | .pause => g.Clean
  | .propagate => g.Marking g.waiting
  | .sweepstring => g.Sweeping
  | .sweep => g.Sweeping
  | .finalize => g.Clean

theorem phase_iff {g : GlobalState} : g.Phase ↔
    g.gcstate = .propagate ∧ g.Marking g.waiting ∨
      (g.gcstate = .sweepstring ∨ g.gcstate = .sweep) ∧ g.Sweeping ∨
        (g.gcstate = .pause ∨ g.gcstate = .finalize) ∧ g.Clean := by
  rw [Phase]
  cases state : g.gcstate <;> simp

/-- The invariant of the collector, without the condition of the collector's state. -/
structure Formed : Prop where
  coloured : Coloured g.object g.marked g.currentwhite
  rooted : Rooted g.object g.rootgc g.tmudata g.mainthread
  interned : Interned g.object g.strt g.nuse
  opened : Opened g.object g.uvhead
  names : ∀ ts ∈ [g.tmMode, g.tmGc],
    (∃ s, g.object ts = some (.string s)) ∧ (g.marked ts).isfixed
  fixed : ∀ o x, g.object o = some x → (g.marked o).isfixed → x.tt = .string ∨ o = g.mainthread
  sound : g.Sound

/-- The invariant of the collector. -/
structure Invariant : Prop extends g.Formed where
  phase : g.Phase

end GlobalState

/-! ## Changes of marks and lists -/

section Marks

variable {g : GlobalState} {o : Addr} {x : GCObject} {m : Marked}

theorem GlobalState.Has.setMarked {r : Ref} (has : g.Has r)
    (alive : Marked.isdead g.currentwhite m = false) : (g.setMarked o m).Has r := by
  refine ⟨has.1, ?_⟩
  rcases eq_or_ne r.2 o with same | ne
  · rw [GlobalState.isdead, same, GlobalState.marked_setMarked_self]
    exact alive
  · rw [GlobalState.isdead, GlobalState.marked_setMarked_of_ne ne]
    exact has.2

/-- An object that refers to no dead object gets another mark. -/
theorem GlobalState.Formed.setMarked (formed : g.Formed) (object : g.object o = some x)
    (coloured : x.Coloured m) (refs : ∀ r ∈ g.refs o, g.Has r)
    (alive : Marked.isdead g.currentwhite m = false)
    (fixed : m.isfixed = (g.marked o).isfixed) : (g.setMarked o m).Formed where
  coloured := by
    refine ⟨formed.coloured.white, fun p y object_p => ?_, fun p free => ?_⟩
    · rcases eq_or_ne p o with rfl | ne
      · rw [GlobalState.marked_setMarked_self, ← Option.some.inj (object.symm.trans object_p)]
        exact coloured
      · rw [GlobalState.marked_setMarked_of_ne ne]
        exact formed.coloured.each p y object_p
    · have ne : p ≠ o := by
        rintro rfl
        cases object.symm.trans free
      rw [GlobalState.marked_setMarked_of_ne ne]
      exact formed.coloured.free p free
  rooted := formed.rooted
  interned := formed.interned
  opened := formed.opened
  names ts member := by
    obtain ⟨string, is_fixed⟩ := formed.names ts member
    refine ⟨string, ?_⟩
    rcases eq_or_ne ts o with rfl | ne
    · rw [GlobalState.marked_setMarked_self, fixed]
      exact is_fixed
    · rw [GlobalState.marked_setMarked_of_ne ne]
      exact is_fixed
  fixed p y object_p is_fixed := by
    refine formed.fixed p y object_p ?_
    rcases eq_or_ne p o with rfl | ne
    · rwa [GlobalState.marked_setMarked_self, fixed] at is_fixed
    · rwa [GlobalState.marked_setMarked_of_ne ne] at is_fixed
  sound := by
    refine ⟨fun p y object_p alive_p r member => ?_, fun r member => ?_⟩
    · rcases eq_or_ne p o with rfl | ne
      · exact (refs r member).setMarked alive
      · rw [GlobalState.isdead, GlobalState.marked_setMarked_of_ne ne] at alive_p
        exact (formed.sound.refs p y object_p alive_p r member).setMarked alive
    · exact (formed.sound.roots r member).setMarked alive

theorem GlobalState.Formed.lists {gray grayagain weak : List Addr} (formed : g.Formed) :
    ({ g with gray, grayagain, weak } : GlobalState).Formed where
  coloured := formed.coloured
  rooted := formed.rooted
  interned := formed.interned
  opened := formed.opened
  names := formed.names
  fixed := formed.fixed
  sound := ⟨formed.sound.refs, formed.sound.roots⟩

end Marks

/-! ## Changes of contents -/

/-- Objects of one kind; threads with the same open upvalues. -/
inductive Alike : GCObject → GCObject → Prop where
  | table (h h' : Table) : Alike (.table h) (.table h')
  | function (cl cl' : Closure) : Alike (.function cl) (.function cl')
  | userdata (u u' : Udata) : Alike (.userdata u) (.userdata u')
  | proto (f f' : Proto) : Alike (.proto f) (.proto f')
  | own (v v' : TValue) : Alike (.upval (.own v)) (.upval (.own v'))
  | thread {th th' : Thread} (top : th'.top ≤ th'.stack.length)
      (openupval : th'.openupval = th.openupval) : Alike (.thread th) (.thread th')

section Alike

variable {object : Addr → Option GCObject} {marked : Addr → Marked} {currentwhite : Marked}
  {rootgc tmudata uvhead : List Addr} {mainthread o p : Addr} {strt : List (List Addr)} {nuse : Nat}
  {x x' : GCObject}

theorem Alike.tt (alike : Alike x x') : x'.tt = x.tt := by
  cases alike <;> rfl

theorem Alike.rooted (alike : Alike x x') : x.rooted ∧ x'.rooted := by
  cases alike <;> exact ⟨rfl, rfl⟩

theorem Alike.listed (alike : Alike x x') : x'.listed = x.listed := by
  cases alike <;> rfl

theorem Alike.coloured {m : Marked} (alike : Alike x x') (coloured : x.Coloured m) :
    x'.Coloured m := by
  refine ⟨coloured.proper, fun black => ?_, fun gray => ?_⟩
  · have may := coloured.black black
    cases alike <;> exact may
  · have may := coloured.gray gray
    cases alike <;> exact may

theorem Alike.string_iff (alike : Alike x x') (was : object o = some x) (s : Bytes) :
    update object o (some x') p = some (.string s) ↔ object p = some (.string s) := by
  rcases eq_or_ne p o with rfl | ne
  · rw [update_self, was]
    cases alike <;> simp
  · rw [update_of_ne ne]

theorem Alike.stack_iff (alike : Alike x x') (was : object o = some x) (L : Addr) (level : Nat) :
    update object o (some x') p = some (.upval (.stack L level)) ↔
      object p = some (.upval (.stack L level)) := by
  rcases eq_or_ne p o with rfl | ne
  · rw [update_self, was]
    cases alike <;> simp
  · rw [update_of_ne ne]

theorem Alike.userdata_iff (alike : Alike x x') (was : object o = some x) :
    (∃ u, update object o (some x') p = some (.userdata u)) ↔
      ∃ u, object p = some (.userdata u) := by
  rcases eq_or_ne p o with rfl | ne
  · rw [update_self, was]
    cases alike <;> simp
  · rw [update_of_ne ne]

theorem Alike.rooted_iff (alike : Alike x x') (was : object o = some x) :
    (∃ y, update object o (some x') p = some y ∧ y.rooted) ↔
      ∃ y, object p = some y ∧ y.rooted := by
  rcases eq_or_ne p o with rfl | ne
  · rw [update_self, was]
    exact ⟨fun _ => ⟨x, rfl, alike.rooted.1⟩, fun _ => ⟨x', rfl, alike.rooted.2⟩⟩
  · rw [update_of_ne ne]

theorem Rooted.change (rooted : Rooted object rootgc tmudata mainthread) (alike : Alike x x')
    (was : object o = some x) :
    Rooted (update object o (some x')) rootgc tmudata mainthread where
  nodup := rooted.nodup
  mem_iff p := (rooted.mem_iff p).trans (alike.rooted_iff was).symm
  tmudata p member := (alike.userdata_iff was).mpr (rooted.tmudata p member)
  main := rooted.main
  after p := by
    rw [rooted.after p, alike.userdata_iff was]

theorem Interned.change (interned : Interned object strt nuse) (alike : Alike x x')
    (was : object o = some x) : Interned (update object o (some x')) strt nuse where
  nodup := interned.nodup
  mem_iff p := by
    rw [interned.mem_iff p]
    simp only [alike.string_iff was]
  bucket p s string := interned.bucket p s ((alike.string_iff was s).mp string)
  unique p p' s string string' := interned.unique p p' s ((alike.string_iff was s).mp string)
    ((alike.string_iff was s).mp string')
  size := interned.size
  nuse := interned.nuse

theorem Opened.change (opened : Opened object uvhead) (alike : Alike x x')
    (was : object o = some x)
    (levels : ∀ th, x' = .thread th → ∀ uv ∈ th.openupval, ∀ level,
      object uv = some (.upval (.stack o level)) → level < th.top) :
    Opened (update object o (some x')) uvhead := by
  have thread {L : Addr} {th : Thread} (thread : update object o (some x') L = some (.thread th)) :
      th.top ≤ th.stack.length ∧ ∃ th', object L = some (.thread th') ∧
        th.openupval = th'.openupval ∧ (L ≠ o → th = th') ∧ (L = o → x' = .thread th) := by
    rcases eq_or_ne L o with rfl | ne
    · rw [update_self] at thread
      have same : x' = .thread th := Option.some.inj thread
      subst same
      cases alike with
      | thread top openupval => exact ⟨top, _, was, openupval, fun ne => absurd rfl ne, fun _ => rfl⟩
    · rw [update_of_ne ne] at thread
      exact ⟨opened.top L th thread, th, thread, rfl, fun _ => rfl, fun same => absurd same ne⟩
  refine ⟨fun L th is_thread => (thread is_thread).1, fun uv L level is_open => ?_,
    fun L th uv is_thread member => ?_, fun L th is_thread => ?_, opened.nodup, fun uv => ?_⟩
  · obtain ⟨th, is_thread, member⟩ := opened.mem uv L level ((alike.stack_iff was L level).mp is_open)
    rcases eq_or_ne L o with rfl | ne
    · rw [was] at is_thread
      cases Option.some.inj is_thread
      cases alike with
      | thread top openupval => exact ⟨_, update_self _ _ _, openupval ▸ member⟩
    · exact ⟨th, (update_of_ne ne _ _).trans is_thread, member⟩
  · obtain ⟨-, th', was_thread, openupval, other, this⟩ := thread is_thread
    obtain ⟨level, is_open, below⟩ := opened.level L th' uv was_thread (openupval ▸ member)
    refine ⟨level, (alike.stack_iff was L level).mpr is_open, ?_⟩
    rcases eq_or_ne L o with rfl | ne
    · exact levels th (this rfl) uv member level is_open
    · rw [other ne]
      exact below
  · obtain ⟨-, th', was_thread, openupval, -⟩ := thread is_thread
    rw [openupval]
    simpa only [alike.stack_iff was] using opened.sorted L th' was_thread
  · rw [opened.mem_iff uv]
    simp only [alike.stack_iff was]

end Alike

section Contents

variable {g : GlobalState} {o p : Addr} {x x' : GCObject}

theorem GlobalState.tt_setObject (was : g.object o = some x) (same : x'.tt = x.tt) :
    (g.setObject o x').tt = g.tt := by
  funext p
  rw [GlobalState.tt, GlobalState.tt]
  rcases eq_or_ne p o with rfl | ne
  · rw [GlobalState.object_setObject_self, was, Option.map_some, Option.map_some, same]
  · rw [GlobalState.object_setObject_of_ne ne]

theorem GlobalState.slot_setObject (was : g.object o = some x) (alike : Alike x x')
    (thread : x.tt ≠ .thread) : (g.setObject o x').slot = g.slot := by
  funext L level
  rw [GlobalState.slot, GlobalState.slot]
  rcases eq_or_ne L o with rfl | ne
  · rw [GlobalState.object_setObject_self, was]
    cases alike with
    | thread top openupval => exact absurd rfl thread
    | table h h' => rfl
    | function cl cl' => rfl
    | userdata u u' => rfl
    | proto f f' => rfl
    | own v v' => rfl
  · rw [GlobalState.object_setObject_of_ne ne]

theorem GlobalState.refs_setObject_of_ne (ne : p ≠ o)
    (slot : ∀ L level, g.object p = some (.upval (.stack L level)) →
      (g.setObject o x').slot L level = g.slot L level) :
    (g.setObject o x').refs p = g.refs p := by
  rw [GlobalState.refs, GlobalState.refs, GlobalState.object_setObject_of_ne ne]
  cases object : g.object p with
  | none => rfl
  | some y =>
      cases y with
      | upval uv =>
          cases uv with
          | own v => rfl
          | stack L level => exact congrArg TValue.refs (slot L level object)
      | string s => rfl
      | table h => rfl
      | function cl => rfl
      | userdata u => rfl
      | thread th => rfl
      | proto f => rfl

/-- An object gets other contents, of references to live objects. -/
theorem GlobalState.Formed.setObject (formed : g.Formed) (alike : Alike x x')
    (was : g.object o = some x)
    (levels : ∀ th, x' = .thread th → ∀ uv ∈ th.openupval, ∀ level,
      g.object uv = some (.upval (.stack o level)) → level < th.top)
    (refs : ∀ p y, (g.setObject o x').object p = some y → g.isdead p = false →
      ∀ r ∈ (g.setObject o x').refs p, g.Has r) : (g.setObject o x').Formed where
  coloured := by
    refine ⟨formed.coloured.white, fun p y object => ?_, fun p free => ?_⟩
    · rcases eq_or_ne p o with rfl | ne
      · rw [GlobalState.object_setObject_self] at object
        cases object
        exact alike.coloured (formed.coloured.each p x was)
      · rw [GlobalState.object_setObject_of_ne ne] at object
        exact formed.coloured.each p y object
    · have ne : p ≠ o := by
        rintro rfl
        cases GlobalState.object_setObject_self.symm.trans free
      rw [GlobalState.object_setObject_of_ne ne] at free
      exact formed.coloured.free p free
  rooted := formed.rooted.change alike was
  interned := formed.interned.change alike was
  opened := formed.opened.change alike was levels
  names ts member := by
    obtain ⟨⟨s, string⟩, fixed⟩ := formed.names ts member
    exact ⟨⟨s, (alike.string_iff was s).mpr string⟩, fixed⟩
  fixed p y object is_fixed := by
    rcases eq_or_ne p o with rfl | ne
    · rw [GlobalState.object_setObject_self] at object
      rw [← Option.some.inj object, alike.tt]
      exact formed.fixed p x was is_fixed
    · rw [GlobalState.object_setObject_of_ne ne] at object
      exact formed.fixed p y object is_fixed
  sound := by
    have has (r : Ref) (has : g.Has r) : (g.setObject o x').Has r := by
      refine ⟨?_, has.2⟩
      rw [GlobalState.tt_setObject was alike.tt]
      exact has.1
    exact ⟨fun p y object alive r member => has r (refs p y object alive r member),
      fun r member => has r (formed.sound.roots r member)⟩

end Contents

end LuaScript.GC
