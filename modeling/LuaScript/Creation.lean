import LuaScript.Cycle

/-!
# New objects

A new object gets the current white, so that the collection in progress does not free it.  The
creation of an object keeps the invariant in every state of the collector.
-/

namespace LuaScript.GC

open Function

/-- An object has been created, and has perhaps been put into the list of open upvalues of a
thread. -/
structure Created (g g' : GlobalState) (o : Addr) (x : GCObject) : Prop where
  new : g.object o = none
  object : g'.object o = some x
  others : ∀ p, p ≠ o → g'.object p = g.object p ∨ ∃ th l, g.object p = some (.thread th) ∧
    g'.object p = some (.thread { th with openupval := l })
  frame : g' = { g with
    object := g'.object
    marked := update g.marked o (Marked.luaCWhite g.currentwhite)
    rootgc := g'.rootgc
    strt := g'.strt
    nuse := g'.nuse
    uvhead := g'.uvhead }
  refs : ∀ r ∈ g'.refs o, g.Has r
  root : ∀ p ∈ g.rootgc, p ∈ g'.rootgc
  pending : g.Sweeping → ∀ p ∈ g'.rootgc, p ∉ g'.pending → p = o ∨ p ∈ g.rootgc ∧ p ∉ g.pending
  length : g'.strt.length = g.strt.length
  buckets : ∀ i p, p ∈ g'.strt.getD i [] → p = o ∨ p ∈ g.strt.getD i []
  opens : ∀ p, ∀ uv ∈ g'.openupval p, uv = o ∨ uv ∈ g.openupval p

section Created

variable {g g' : GlobalState} {o p : Addr} {x : GCObject} {r : Ref}

theorem Created.marked (created : Created g g' o x) :
    g'.marked = update g.marked o (Marked.luaCWhite g.currentwhite) := by
  rw [created.frame]

theorem Created.currentwhite (created : Created g g' o x) : g'.currentwhite = g.currentwhite := by
  rw [created.frame]

theorem Created.isdead_of_ne (created : Created g g' o x) (ne : p ≠ o) :
    g'.isdead p = g.isdead p := by
  rw [GlobalState.isdead, created.marked, update_of_ne ne, created.currentwhite]
  rfl

theorem Created.iswhite_of_ne (created : Created g g' o x) (ne : p ≠ o) :
    g'.iswhite p = g.iswhite p := by
  rw [GlobalState.iswhite, created.marked, update_of_ne ne]
  rfl

theorem Created.fresh (created : Created g g' o x) (current : g.currentwhite.White) :
    g'.Fresh o := by
  refine ⟨?_, ?_⟩
  · rw [GlobalState.iswhite, created.marked, update_self, Marked.luaCWhite_eq]
    exact current.iswhite_makewhite
  · rw [GlobalState.isdead, created.marked, update_self, created.currentwhite, Marked.luaCWhite_eq]
    exact current.isdead_makewhite

theorem Created.ne_of_isSome (created : Created g g' o x) (exists_p : (g.object p).isSome) :
    p ≠ o := by
  rintro rfl
  rw [created.new] at exists_p
  cases exists_p

theorem Created.object_of_ne (created : Created g g' o x) (ne : p ≠ o) {y : GCObject}
    (object : g'.object p = some y) :
    ∃ z, g.object p = some z ∧ z.tt = y.tt ∧ z.listed = y.listed ∧
      ∀ m, z.Coloured m → y.Coloured m := by
  rcases created.others p ne with same | ⟨th, l, thread, thread'⟩
  · exact ⟨y, same ▸ object, rfl, rfl, fun _ => id⟩
  · cases object.symm.trans thread'
    exact ⟨_, thread, rfl, rfl, fun m coloured => ⟨coloured.proper, coloured.black, coloured.gray⟩⟩

theorem Created.tt_of_ne (created : Created g g' o x) (ne : p ≠ o) : g'.tt p = g.tt p := by
  rw [GlobalState.tt, GlobalState.tt]
  rcases created.others p ne with same | ⟨th, l, thread, thread'⟩
  · rw [same]
  · rw [thread, thread']
    rfl

theorem Created.has (created : Created g g' o x) (has : g.Has r) : g'.Has r := by
  have ne : r.2 ≠ o := created.ne_of_isSome has.isSome
  exact ⟨(created.tt_of_ne ne).trans has.1, (created.isdead_of_ne ne).trans has.2⟩

theorem Created.slot_of_ne (created : Created g g' o x) {L level : Nat} (ne : L ≠ o) :
    g'.slot L level = g.slot L level := by
  rw [GlobalState.slot, GlobalState.slot]
  rcases created.others L ne with same | ⟨th, l, thread, thread'⟩
  · rw [same]
  · rw [thread, thread']
    rfl

theorem Created.refsWith (created : Created g g' o x) (opened : Opened g.object g.uvhead)
    (node : Node → List Ref) (ne : p ≠ o) :
    (match g'.object p with
      | some x => x.refsWith node g'.slot
      | none => []) =
      match g.object p with
      | some x => x.refsWith node g.slot
      | none => [] := by
  rcases created.others p ne with same | ⟨th, l, thread, thread'⟩
  · rw [same]
    cases object : g.object p with
    | none => rfl
    | some y =>
        cases y with
        | upval uv =>
            cases uv with
            | own v => rfl
            | stack L level =>
                obtain ⟨th, thread, -⟩ := opened.mem p L level object
                have ne : L ≠ o := created.ne_of_isSome (Option.isSome_of_eq_some thread)
                exact congrArg TValue.refs (created.slot_of_ne ne)
        | string s => rfl
        | table h => rfl
        | function cl => rfl
        | userdata u => rfl
        | thread th => rfl
        | proto f => rfl
  · rw [thread, thread']
    rfl

theorem Created.strong_of_ne (created : Created g g' o x) (opened : Opened g.object g.uvhead)
    (ne : p ≠ o) : g'.strong p = g.strong p := by
  have held : g'.held p = g.held p := created.refsWith opened Node.held ne
  have weak : g'.weak = g.weak := by rw [created.frame]
  rw [GlobalState.strong, GlobalState.strong, held, weak, created.marked, update_of_ne ne]
  rcases created.others p ne with same | ⟨th, l, thread, thread'⟩
  · rw [same]
  · rw [thread, thread']

/-- A new object, in the lists that it belongs to. -/
theorem Created.formed (created : Created g g' o x) (formed : g.Formed)
    (rooted : Rooted g'.object g'.rootgc g.tmudata g.mainthread)
    (interned : Interned g'.object g'.strt g'.nuse) (opened : Opened g'.object g'.uvhead) :
    g'.Formed where
  coloured := by
    refine ⟨created.currentwhite ▸ formed.coloured.white, fun p y object => ?_, fun p free => ?_⟩
    · rcases eq_or_ne p o with rfl | ne
      · have fresh := created.fresh formed.coloured.white
        have proper : (g'.marked p).Proper := by
          rw [created.marked, update_self, Marked.luaCWhite_eq]
          exact formed.coloured.white.proper_makewhite
        refine ⟨proper, fun black => ?_, fun gray => ?_⟩
        · cases (proper.1 black).symm.trans fresh.1
        · simp [Marked.isgray, show (g'.marked p).iswhite from fresh.1] at gray
      · obtain ⟨z, object, -, -, coloured⟩ := created.object_of_ne ne object
        rw [created.marked, update_of_ne ne]
        exact coloured _ (formed.coloured.each p z object)
    · have ne : p ≠ o := by
        rintro rfl
        cases created.object.symm.trans free
      rw [created.marked, update_of_ne ne]
      refine formed.coloured.free p ?_
      rcases created.others p ne with same | ⟨th, l, thread, thread'⟩
      · exact same.symm.trans free
      · cases free.symm.trans thread'
  rooted := by
    rw [show g'.tmudata = g.tmudata by rw [created.frame],
      show g'.mainthread = g.mainthread by rw [created.frame]]
    exact rooted
  interned := interned
  opened := opened
  names ts member := by
    have member : ts ∈ [g.tmMode, g.tmGc] := by
      rw [created.frame] at member
      exact member
    obtain ⟨⟨s, string⟩, fixed⟩ := formed.names ts member
    have ne : ts ≠ o := created.ne_of_isSome (Option.isSome_of_eq_some string)
    rw [created.marked, update_of_ne ne]
    refine ⟨⟨s, ?_⟩, fixed⟩
    rcases created.others ts ne with same | ⟨th, l, thread, -⟩
    · rw [same]
      exact string
    · cases string.symm.trans thread
  fixed p y object is_fixed := by
    rw [show g'.mainthread = g.mainthread by rw [created.frame]]
    rcases eq_or_ne p o with rfl | ne
    · rw [created.marked, update_self, Marked.luaCWhite_eq,
        formed.coloured.white.isfixed_makewhite] at is_fixed
      cases is_fixed
    · obtain ⟨z, object, tt, -⟩ := created.object_of_ne ne object
      rw [created.marked, update_of_ne ne] at is_fixed
      rw [← tt]
      exact formed.fixed p z object is_fixed
  sound := by
    refine ⟨fun p y object alive r member => created.has ?_, fun r member => created.has ?_⟩
    · rcases eq_or_ne p o with rfl | ne
      · exact created.refs r member
      · obtain ⟨z, object, -⟩ := created.object_of_ne ne object
        have refs : g'.refs p = g.refs p := created.refsWith formed.opened Node.refs ne
        rw [refs] at member
        rw [created.isdead_of_ne ne] at alive
        exact formed.sound.refs p z object alive r member
    · refine formed.sound.roots r ?_
      rw [created.frame] at member
      exact member

/-! ## The states of the collector -/

theorem Created.alive (created : Created g g' o x) (current : g.currentwhite.White)
    (alive : g.Alive) : g'.Alive := by
  intro p y object
  rcases eq_or_ne p o with rfl | ne
  · exact (created.fresh current).2
  · obtain ⟨z, object, -⟩ := created.object_of_ne ne object
    rw [created.isdead_of_ne ne]
    exact alive p z object

theorem Created.waiting (created : Created g g' o x) (ne : p ≠ o) (waits : g.waiting p) :
    g'.waiting p := by
  rw [GlobalState.waiting, show g'.grayagain = g.grayagain by rw [created.frame],
    show g'.weak = g.weak by rw [created.frame], show g'.tmudata = g.tmudata by rw [created.frame]]
  rcases waits with again | weak | is_open | tmudata
  · exact .inl again
  · exact .inr (.inl weak)
  · obtain ⟨L, level, is_open⟩ := GlobalState.object_of_level is_open
    refine .inr (.inr (.inl ?_))
    rcases created.others p ne with same | ⟨th, l, thread, -⟩
    · rw [GlobalState.level, same, is_open]
      rfl
    · cases is_open.symm.trans thread
  · exact .inr (.inr (.inr tmudata))

/-- A new object is white, so that a marking has not found it. -/
theorem Created.marking (created : Created g g' o x) (formed : g.Formed)
    (marking : g.Marking g.waiting) : g'.Marking g'.waiting := by
  have fresh := created.fresh formed.coloured.white
  have lists : g'.gray ++ (g'.grayagain ++ g'.weak) = g.gray ++ (g.grayagain ++ g.weak) := by
    rw [created.frame]
  have found_ne (p : Addr) (found : ¬g'.iswhite p) : p ≠ o := by
    rintro rfl
    exact found fresh.1
  refine ⟨created.alive formed.coloured.white marking.alive, ⟨lists ▸ marking.listed.nodup, ?_, ?_⟩,
    fun p found => ?_, ?_, fun r member => ?_⟩
  · rw [lists]
    intro p member
    obtain ⟨y, object, listed, gray⟩ := marking.listed.mem p member
    have ne : p ≠ o := created.ne_of_isSome (Option.isSome_of_eq_some object)
    rw [created.marked, update_of_ne ne]
    rcases created.others p ne with same | ⟨th, l, thread, thread'⟩
    · exact ⟨y, same.trans object, listed, gray⟩
    · exact ⟨_, thread', rfl, gray⟩
  · rw [lists]
    intro p y object listed gray
    have ne : p ≠ o := by
      rintro rfl
      have white := fresh.1
      rw [GlobalState.iswhite] at white
      simp [Marked.isgray, white] at gray
    obtain ⟨z, object, -, same, -⟩ := created.object_of_ne ne object
    rw [created.marked, update_of_ne ne] at gray
    exact marking.listed.listed p z object (same.trans listed) gray
  · have ne := found_ne p found
    have found' : ¬g.iswhite p := created.iswhite_of_ne ne ▸ found
    rcases marking.covers p found' with (gray | waits) | settled
    · refine .inl (.inl ?_)
      rw [created.frame]
      exact gray
    · exact .inl (.inr (created.waiting ne waits))
    · right
      rintro q ⟨tag, member⟩
      rw [created.strong_of_ne formed.opened ne] at member
      have settled := settled q ⟨tag, member⟩
      -- The address may be left in an empty entry of a table, but no free address has been found.
      have ne_q : q ≠ o := by
        rintro rfl
        exact settled (formed.coloured.free q created.new)
      show ¬g'.iswhite q
      rw [created.iswhite_of_ne ne_q]
      exact settled
  · rw [show g'.mainthread = g.mainthread by rw [created.frame]]
    have ne : g.mainthread ≠ o := created.ne_of_isSome
      (formed.sound.roots _ List.mem_cons_self).isSome
    rw [created.iswhite_of_ne ne]
    exact marking.main
  · rw [show g'.registry = g.registry by rw [created.frame]] at member
    have ne : r.2 ≠ o := created.ne_of_isSome (formed.sound.roots r (by
      simp [GlobalState.roots, member])).isSome
    rw [created.iswhite_of_ne ne]
    exact marking.registry r member

theorem Created.sweeping (created : Created g g' o x) (current : g.currentwhite.White)
    (sweeping : g.Sweeping) : g'.Sweeping := by
  have fresh (p : Addr) (fresh : g.Fresh p) : g'.Fresh p := by
    rcases eq_or_ne p o with rfl | ne
    · exact created.fresh current
    · rw [GlobalState.Fresh, created.iswhite_of_ne ne, created.isdead_of_ne ne]
      exact fresh
  have none (p : Addr) (member : p ∈ g'.openupval o) : p = o := by
    refine (created.opens o p member).resolve_right fun member => ?_
    rw [GlobalState.openupval, created.new] at member
    exact absurd member List.not_mem_nil
  refine sweeping.step (by rw [created.frame]) (by rw [created.frame]) (by rw [created.frame])
    (fun _ => created.length) fresh (fun i p member => ?_)
    (fun a cursor => created.root a (sweeping.cursor a cursor)) (fun p root later => ?_)
    (fun p member => ?_) fun p alive => ?_
  · rcases created.buckets i p member with rfl | member
    · exact .inl (created.fresh current)
    · exact .inr member
  · rcases created.pending sweeping p root later with rfl | swept
    · refine .inl ⟨created.fresh current, fun uv member => ?_⟩
      rw [none uv member]
      exact created.fresh current
    · refine .inr ⟨swept, fun uv member => ?_⟩
      rcases created.opens p uv member with rfl | member
      · exact .inl (created.fresh current)
      · exact .inr member
  · rw [created.frame] at member
    exact member
  · rcases eq_or_ne p o with rfl | ne
    · exact (created.fresh current).2
    · rw [created.isdead_of_ne ne]
      exact alive

theorem Created.clean (created : Created g g' o x) (current : g.currentwhite.White)
    (clean : g.Clean) : g'.Clean := by
  refine ⟨created.alive current clean.alive, fun p y object outside => ?_⟩
  rcases eq_or_ne p o with rfl | ne
  · exact (created.fresh current).1
  · obtain ⟨z, object, -⟩ := created.object_of_ne ne object
    rw [created.iswhite_of_ne ne]
    refine clean.white p z object fun member => outside ?_
    rw [created.frame]
    exact member

/-- The creation of an object keeps the invariant. -/
theorem Created.invariant (created : Created g g' o x) (invariant : g.Invariant)
    (rooted : Rooted g'.object g'.rootgc g.tmudata g.mainthread)
    (interned : Interned g'.object g'.strt g'.nuse) (opened : Opened g'.object g'.uvhead) :
    g'.Invariant := by
  have current := invariant.coloured.white
  have state : g'.gcstate = g.gcstate := by rw [created.frame]
  refine ⟨created.formed invariant.toFormed rooted interned opened, GlobalState.phase_iff.mpr ?_⟩
  rw [state]
  exact (GlobalState.phase_iff.mp invariant.phase).imp
    (And.imp_right (created.marking invariant.toFormed))
    (Or.imp (And.imp_right (created.sweeping current)) (And.imp_right (created.clean current)))

end Created

section Create

variable {g : GlobalState} {object : Addr → Option GCObject} {o L : Addr} {x : GCObject}
  {uvhead : List Addr}

/-! ## Objects of the root list -/

/-- A new object is not an open upvalue, and has none. -/
theorem Opened.create (opened : Opened object uvhead) (new : object o = none)
    (kind : ∀ L level, x ≠ .upval (.stack L level))
    (thread : ∀ th, x = .thread th → th.openupval = [] ∧ th.top ≤ th.stack.length) :
    Opened (update object o (some x)) uvhead := by
  have stack_iff (p L : Addr) (level : Nat) :
      update object o (some x) p = some (.upval (.stack L level)) ↔
        object p = some (.upval (.stack L level)) := by
    rcases eq_or_ne p o with rfl | ne
    · rw [update_self, new]
      refine ⟨fun same => absurd (Option.some.inj same) (kind L level), fun none => ?_⟩
      cases none
    · rw [update_of_ne ne]
  have thread_or (p : Addr) (th : Thread)
      (is_thread : update object o (some x) p = some (.thread th)) :
      (th.openupval = [] ∧ th.top ≤ th.stack.length) ∨ object p = some (.thread th) := by
    rcases eq_or_ne p o with rfl | ne
    · rw [update_self] at is_thread
      exact .inl (thread th (Option.some.inj is_thread))
    · exact .inr ((update_of_ne ne _ _).symm.trans is_thread)
  refine ⟨fun p th is_thread => ?_, fun p L level is_open => ?_, fun p th uv is_thread member => ?_,
    fun p th is_thread => ?_, opened.nodup, fun p => ?_⟩
  · rcases thread_or p th is_thread with ⟨-, top⟩ | was
    · exact top
    · exact opened.top p th was
  · obtain ⟨th, was, member⟩ := opened.mem p L level ((stack_iff p L level).mp is_open)
    refine ⟨th, (update_of_ne ?_ _ _).trans was, member⟩
    rintro rfl
    cases new.symm.trans was
  · rcases thread_or p th is_thread with ⟨empty, -⟩ | was
    · exact absurd (empty ▸ member) List.not_mem_nil
    · simp only [stack_iff]
      exact opened.level p th uv was member
  · rcases thread_or p th is_thread with ⟨empty, -⟩ | was
    · rw [empty]
      exact List.Pairwise.nil
    · simp only [stack_iff]
      exact opened.sorted p th was
  · rw [opened.mem_iff p]
    simp only [stack_iff]

theorem Rooted.outside {rootgc tmudata : List Addr} {mainthread : Addr}
    (rooted : Rooted object rootgc tmudata mainthread) (new : object o = none) :
    o ∉ rootgc ++ tmudata := by
  intro member
  obtain ⟨y, old, -⟩ := (rooted.mem_iff o).mp member
  cases new.symm.trans old

/-- `luaC_link` -/
theorem GlobalState.Invariant.luaCLink (invariant : g.Invariant) (new : g.object o = none)
    (rooted : x.rooted) (udata : ∀ u, x ≠ .userdata u)
    (thread : ∀ th, x = .thread th → th.openupval = [] ∧ th.top ≤ th.stack.length)
    (refs : ∀ r ∈ (g.luaCLink o x).refs o, g.Has r) :
    (g.luaCLink o x).Invariant ∧ Created g (g.luaCLink o x) o x := by
  have object (p : Addr) (ne : p ≠ o) : (g.luaCLink o x).object p = g.object p :=
    update_of_ne ne _ _
  have kind (L level : Nat) : x ≠ .upval (.stack L level) := by
    rintro rfl
    cases rooted
  have outside := invariant.rooted.outside new
  have created : Created g (g.luaCLink o x) o x := by
    refine ⟨new, update_self _ _ _, fun p ne => .inl (object p ne), rfl, refs,
      fun p => List.mem_cons_of_mem o, fun sweeping p root later => ?_, rfl, fun i p => .inr,
      fun p uv member => .inr ?_⟩
    · rcases List.mem_cons.mp root with rfl | root
      · exact .inl rfl
      · refine .inr ⟨root, fun again => later ?_⟩
        rw [GlobalState.pending] at again ⊢
        rw [show (g.luaCLink o x).sweepgc = g.sweepgc from rfl]
        cases cursor : g.sweepgc with
        | none => exact List.mem_cons_of_mem o root
        | some a =>
            rw [cursor] at again
            have ne : o ≠ a := by
              rintro rfl
              exact outside (List.mem_append_left _ (sweeping.cursor o cursor))
            show p ∈ GlobalState.after a (o :: g.rootgc)
            rw [GlobalState.after_cons ne]
            exact again
    · rcases eq_or_ne p o with rfl | ne
      · rw [GlobalState.openupval,
          show (g.luaCLink p x).object p = some x from update_self _ _ _] at member
        cases x with
        | thread th =>
            have member : uv ∈ th.openupval := member
            rw [(thread th rfl).1] at member
            exact absurd member List.not_mem_nil
        | _ => exact absurd member List.not_mem_nil
      · rwa [GlobalState.openupval, object p ne] at member
  refine ⟨created.invariant invariant ?_ (invariant.interned.congr fun p s => ?_)
    (invariant.opened.create new kind thread), created⟩
  · refine invariant.rooted.link (fun y old => ?_) rooted udata
    cases new.symm.trans old
  · rcases eq_or_ne p o with rfl | ne
    · rw [created.object, new]
      refine ⟨fun same => ?_, fun none => ?_⟩
      · cases same
        cases rooted
      · cases none
    · rw [object p ne]

theorem mem_after_insertAfter {a m p : Addr} {l : List Addr} (member : a ∈ l) (ne : o ∉ l)
    (later : p ∈ GlobalState.after a l) :
    p ∈ GlobalState.after a (GlobalState.insertAfter m o l) := by
  obtain ⟨pre, split, outside⟩ := GlobalState.exists_after member
  have kept (l : List Addr) (p : Addr) (member : p ∈ l) : p ∈ GlobalState.insertAfter m o l := by
    refine List.mem_flatMap.mpr ⟨p, member, ?_⟩
    split_ifs
    · exact List.mem_cons_self
    · exact List.mem_cons_self
  have outside' : a ∉ GlobalState.insertAfter m o pre := by
    intro again
    obtain ⟨b, early, same⟩ := List.mem_flatMap.mp again
    have either : a = b ∨ a = o := by
      split_ifs at same
      · simpa using same
      · exact .inl (List.mem_singleton.mp same)
    rcases either with rfl | rfl
    · exact outside early
    · exact ne member
  have inserted : GlobalState.insertAfter m o l = GlobalState.insertAfter m o pre ++
      a :: ((if a = m then [o] else []) ++ GlobalState.insertAfter m o (GlobalState.after a l)) := by
    conv_lhs => rw [split]
    simp only [GlobalState.insertAfter, List.flatMap_append, List.flatMap_cons]
    split_ifs <;> rfl
  rw [inserted, GlobalState.after_append outside']
  exact List.mem_append_right _ (kept _ p later)

/-- `luaS_newudata` -/
theorem GlobalState.Invariant.luaSNewudata {e : Addr} (invariant : g.Invariant)
    (new : g.object o = none) (env : g.Has (.table, e)) :
    (g.luaSNewudata e o).Invariant ∧
      Created g (g.luaSNewudata e o) o (.userdata { metatable := none, env := e }) := by
  have object (p : Addr) (ne : p ≠ o) : (g.luaSNewudata e o).object p = g.object p :=
    update_of_ne ne _ _
  have self : (g.luaSNewudata e o).object o = some (.userdata { metatable := none, env := e }) :=
    update_self _ _ _
  have outside := invariant.rooted.outside new
  have nodup := (List.nodup_append.mp invariant.rooted.nodup).1
  have perm := (insertAfter_spec (o := o) nodup invariant.rooted.main).1
  have created : Created g (g.luaSNewudata e o) o (.userdata { metatable := none, env := e }) := by
    refine ⟨new, self, fun p ne => .inl (object p ne), rfl, fun r member => ?_,
      fun p member => perm.mem_iff.mpr (List.mem_cons_of_mem o member),
      fun sweeping p root later => ?_, rfl, fun i p => .inr, fun p uv member => .inr ?_⟩
    · rw [GlobalState.refs, self] at member
      rw [List.mem_singleton.mp (show r ∈ [(.table, e)] from member)]
      exact env
    · rcases List.mem_cons.mp (perm.mem_iff.mp root) with rfl | root
      · exact .inl rfl
      · refine .inr ⟨root, fun again => later ?_⟩
        rw [GlobalState.pending] at again ⊢
        rw [show (g.luaSNewudata e o).sweepgc = g.sweepgc from rfl]
        cases cursor : g.sweepgc with
        | none => exact perm.mem_iff.mpr (List.mem_cons_of_mem o root)
        | some a =>
            rw [cursor] at again
            exact mem_after_insertAfter (sweeping.cursor a cursor)
              (fun member => outside (List.mem_append_left _ member)) again
    · rcases eq_or_ne p o with rfl | ne
      · rw [GlobalState.openupval, self] at member
        exact absurd member List.not_mem_nil
      · rwa [GlobalState.openupval, object p ne] at member
  refine ⟨created.invariant invariant (invariant.rooted.newudata new _)
    (invariant.interned.congr fun p s => ?_)
    (invariant.opened.create new (fun L level => by simp) fun th => by simp), created⟩
  rcases eq_or_ne p o with rfl | ne
  · rw [self, new]
    simp
  · rw [object p ne]

/-! ## Strings -/

/-- A dead object that is found again gets the current white. -/
theorem GlobalState.Invariant.changewhite (invariant : g.Invariant) (object : g.object o = some x)
    (dead : g.isdead o) (refs : ∀ r ∈ g.refs o, g.Has r) :
    (g.changewhite o).Invariant ∧ (∀ r, g.Has r → (g.changewhite o).Has r) ∧
      (g.changewhite o).isdead o = false := by
  have current := invariant.coloured.white
  have proper := (invariant.coloured.each o x object).proper
  have white : (g.marked o).iswhite := Marked.iswhite_of_isdead dead
  have alive : Marked.isdead g.currentwhite (g.marked o).changewhite = false :=
    current.isdead_changewhite proper dead
  have white' : (g.marked o).changewhite.iswhite := Marked.iswhite_changewhite proper white
  have coloured : x.Coloured (g.marked o).changewhite := by
    refine ⟨proper.changewhite white, fun black => ?_, fun gray => ?_⟩
    · cases ((proper.changewhite white).1 black).symm.trans white'
    · simp [Marked.isgray, white'] at gray
  have formed : (g.changewhite o).Formed :=
    invariant.toFormed.setMarked object coloured refs alive Marked.isfixed_changewhite
  have dead_of_ne (p : Addr) (ne : p ≠ o) : (g.changewhite o).isdead p = g.isdead p := by
    rw [GlobalState.isdead, GlobalState.changewhite, GlobalState.marked_setMarked_of_ne ne]
    rfl
  have alive_o : (g.changewhite o).isdead o = false := by
    rw [GlobalState.isdead, GlobalState.changewhite, GlobalState.marked_setMarked_self]
    exact alive
  have swept : g.Swept ∧ g.Sweeping := by
    rcases GlobalState.phase_iff.mp invariant.phase with ⟨-, marking⟩ | sweeping | ⟨-, clean⟩
    · cases (marking.alive o x object).symm.trans dead
    · exact sweeping
    · cases (clean.alive o x object).symm.trans dead
  refine ⟨formed.invariant swept.1 (swept.2.step rfl rfl rfl (fun _ => rfl) (fun p fresh => ?_)
    (fun _ _ => .inr) swept.2.cursor (fun p root later => .inr ⟨⟨root, later⟩, fun _ => .inr⟩)
    (fun _ => id) fun p alive => ?_), fun r has => has.setMarked alive, alive_o⟩
  · have ne : p ≠ o := by
      rintro rfl
      cases fresh.2.symm.trans dead
    rw [GlobalState.Fresh, GlobalState.iswhite, GlobalState.changewhite,
      GlobalState.marked_setMarked_of_ne ne]
    exact ⟨fresh.1, (dead_of_ne p ne).trans fresh.2⟩
  · rcases eq_or_ne p o with rfl | ne
    · exact alive_o
    · exact (dead_of_ne p ne).trans alive

/-- `luaS_resize` -/
theorem GlobalState.Invariant.luaSResize (invariant : g.Invariant) (k : Nat) :
    (g.luaSResize (2 ^ k)).Invariant := by
  have interned := invariant.interned.resize k
  by_cases state : g.gcstate = .sweepstring
  · rw [GlobalState.luaSResize, if_pos state]
    exact invariant
  have formed := invariant.toFormed
  have same := luaSResize_frame (g := g) (2 ^ k)
  generalize (g.luaSResize (2 ^ k)).strt = strt at interned same
  rw [same]
  refine ⟨⟨formed.coloured, formed.rooted, interned, formed.opened, formed.names, formed.fixed,
    ⟨formed.sound.refs, formed.sound.roots⟩⟩, GlobalState.phase_iff.mpr ?_⟩
  rcases GlobalState.phase_iff.mp invariant.phase with ⟨state, marking⟩ | ⟨swept, sweeping⟩ |
    ⟨paused, clean⟩
  · exact .inl ⟨state, marking.alive, marking.listed, marking.covers, marking.main,
      marking.registry⟩
  · refine .inr (.inl ⟨swept, fun again => absurd again state, fun again => absurd again state,
      sweeping.cursor, fun i o _ member => ?_, sweeping.swept, sweeping.tmudata⟩)
    obtain ⟨s, string⟩ := (interned.mem_iff o).mp (mem_flatten_of_getD member)
    exact sweeping.strings _ o (fun again => absurd again state)
      (invariant.interned.bucket o s string)
  · exact .inr (.inr ⟨paused, clean.alive, clean.white⟩)

/-- A new string is chained in its bucket. -/
theorem Interned.chain {strt : List (List Addr)} {nuse : Nat} {str : Bytes}
    (interned : Interned object strt nuse) (new : object o = none)
    (unused : ∀ p, object p ≠ some (.string str)) :
    Interned (update object o (some (.string str)))
      (GlobalState.chain strt (GlobalState.bucket strt.length str) o) (nuse + 1) := by
  have positive : 0 < strt.length := by
    obtain ⟨k, size⟩ := interned.size
    exact size ▸ Nat.two_pow_pos k
  have inside := GlobalState.bucket_lt positive str
  have perm : (GlobalState.chain strt (GlobalState.bucket strt.length str) o).flatten.Perm
      (o :: strt.flatten) := flatten_modify_cons inside
  have length : (GlobalState.chain strt (GlobalState.bucket strt.length str) o).length =
      strt.length := List.length_modify _ _ _
  have outside : o ∉ strt.flatten := by
    intro member
    obtain ⟨s, string⟩ := (interned.mem_iff o).mp member
    cases new.symm.trans string
  have string_or (p : Addr) (s : Bytes)
      (string : update object o (some (.string str)) p = some (.string s)) :
      (p = o ∧ s = str) ∨ (p ≠ o ∧ object p = some (.string s)) := by
    rcases eq_or_ne p o with rfl | ne
    · rw [update_self] at string
      cases string
      exact .inl ⟨rfl, rfl⟩
    · exact .inr ⟨ne, (update_of_ne ne _ _).symm.trans string⟩
  refine ⟨perm.nodup_iff.mpr (List.nodup_cons.mpr ⟨outside, interned.nodup⟩), fun p => ?_,
    fun p s string => ?_, fun p q s string string' => ?_, ?_, ?_⟩
  · rw [perm.mem_iff, List.mem_cons, interned.mem_iff]
    rcases eq_or_ne p o with rfl | ne
    · rw [update_self]
      exact ⟨fun _ => ⟨str, rfl⟩, fun _ => .inl rfl⟩
    · rw [update_of_ne ne, or_iff_right ne]
  · rw [length]
    rcases string_or p s string with ⟨rfl, rfl⟩ | ⟨ne, string⟩
    · exact mem_getD_chain_self inside
    · exact mem_getD_modify_cons (interned.bucket p s string)
  · rcases string_or p s string with ⟨rfl, rfl⟩ | ⟨ne, string⟩
    · rcases string_or q s string' with ⟨rfl, -⟩ | ⟨-, string'⟩
      · rfl
      · exact absurd string' (unused q)
    · rcases string_or q s string' with ⟨-, bytes⟩ | ⟨-, was⟩
      · exact absurd (bytes ▸ string) (unused p)
      · exact interned.unique p q s string was
  · rw [length]
    exact interned.size
  · rw [perm.length_eq, List.length_cons, interned.nuse]

theorem mem_getD_chain {a c : Addr} {l : List (List Addr)} {i j : Nat}
    (member : c ∈ (GlobalState.chain l i a).getD j []) : c = a ∨ c ∈ l.getD j [] := by
  rw [GlobalState.chain] at member
  simp only [List.getD_eq_getElem?_getD, List.getElem?_modify] at member ⊢
  cases bucket : l[j]? with
  | none => simp [bucket] at member
  | some b =>
      simp only [bucket, Option.map_eq_map, Option.map_some, Option.getD_some] at member ⊢
      split_ifs at member
      · exact List.mem_cons.mp member
      · exact .inr member

/-- `newlstr` -/
theorem GlobalState.Invariant.newlstr {str : Bytes} (invariant : g.Invariant)
    (new : g.object o = none) (unused : ∀ p, g.object p ≠ some (.string str)) :
    (g.newlstr str o).Invariant ∧ (∀ r, g.Has r → (g.newlstr str o).Has r) ∧
      (g.newlstr str o).object o = some (.string str) ∧ (g.newlstr str o).isdead o = false := by
  set g' : GlobalState := { (g.setObject o (.string str)).setMarked o
      (Marked.luaCWhite g.currentwhite) with
    strt := GlobalState.chain g.strt (GlobalState.bucket g.strt.length str) o
    nuse := g.nuse + 1 }
  have object (p : Addr) (ne : p ≠ o) : g'.object p = g.object p := update_of_ne ne _ _
  have self : g'.object o = some (.string str) := update_self _ _ _
  have created : Created g g' o (.string str) := by
    refine ⟨new, self, fun p ne => .inl (object p ne), rfl, fun r member => ?_, fun p => id,
      fun sweeping p root later => .inr ⟨root, later⟩, List.length_modify _ _ _,
      fun i p => mem_getD_chain, fun p uv member => .inr ?_⟩
    · rw [GlobalState.refs, self] at member
      exact absurd member List.not_mem_nil
    · rcases eq_or_ne p o with rfl | ne
      · rw [GlobalState.openupval, self] at member
        exact absurd member List.not_mem_nil
      · rwa [GlobalState.openupval, object p ne] at member
  have interned : Interned g'.object g'.strt g'.nuse := invariant.interned.chain new unused
  have done : g'.Invariant := by
    refine created.invariant invariant (invariant.rooted.congr (fun p => ?_) fun p => ?_) interned
      (invariant.opened.create new (fun L level => by simp) fun th => by simp)
    · rcases eq_or_ne p o with rfl | ne
      · rw [self, new]
        simp [GCObject.rooted]
      · rw [object p ne]
    · rcases eq_or_ne p o with rfl | ne
      · rw [self, new]
        simp
      · rw [object p ne]
  have result : g.newlstr str o = g' ∨ ∃ k, g.newlstr str o = g'.luaSResize (2 ^ k) := by
    have unfolded : g.newlstr str o =
        if g'.strt.length < g'.nuse ∧ g'.strt.length ≤ (2 ^ 31 - 1 - 2) / 2 then
          g'.luaSResize (g'.strt.length * 2)
        else g' := rfl
    rw [unfolded]
    split_ifs
    · obtain ⟨k, size⟩ := interned.size
      refine .inr ⟨k + 1, ?_⟩
      rw [size, Nat.pow_succ]
    · exact .inl rfl
  have alive := (created.fresh invariant.coloured.white).2
  rcases result with same | ⟨k, same⟩
  · rw [same]
    exact ⟨done, fun r => created.has, self, alive⟩
  · rw [same]
    refine ⟨done.luaSResize k, fun r has => ?_, ?_, ?_⟩
    · rw [luaSResize_frame]
      exact created.has has
    · rw [luaSResize_frame]
      exact self
    · rw [luaSResize_frame]
      exact alive

/-- `luaS_newlstr` gives the one string with the bytes, dead or alive or new. -/
theorem GlobalState.Invariant.luaSNewlstr {str : Bytes} (invariant : g.Invariant)
    (new : g.object o = none) :
    (g.luaSNewlstr str o).1.Invariant ∧ (∀ r, g.Has r → (g.luaSNewlstr str o).1.Has r) ∧
      (g.luaSNewlstr str o).1.Has (.string, (g.luaSNewlstr str o).2) ∧
      (g.luaSNewlstr str o).1.object (g.luaSNewlstr str o).2 = some (.string str) := by
  rw [GlobalState.luaSNewlstr]
  cases found : (g.strt.getD (GlobalState.bucket g.strt.length str) []).find?
      fun p => g.content p = some str with
  | some p =>
      have object : g.object p = some (.string str) := by
        have content : g.content p = some str := by simpa using List.find?_some found
        rw [GlobalState.content] at content
        split at content
        · next s string => rw [string, Option.some.inj content]
        · cases content
      dsimp only
      split_ifs with dead
      · obtain ⟨done, keeps, alive⟩ := invariant.changewhite object dead fun r member => by
          rw [GlobalState.refs, object] at member
          exact absurd member List.not_mem_nil
        refine ⟨done, keeps, ⟨?_, alive⟩, object⟩
        exact congrArg (Option.map GCObject.tt) object
      · refine ⟨invariant, fun _ => id, ⟨?_, Bool.eq_false_of_not_eq_true dead⟩, object⟩
        exact congrArg (Option.map GCObject.tt) object
  | none =>
      have unused (p : Addr) : g.object p ≠ some (.string str) := by
        intro object
        have member := invariant.interned.bucket p str object
        have content : g.content p = some str := by rw [GlobalState.content, object]
        have missed := List.find?_eq_none.mp found p member
        simp [content] at missed
      obtain ⟨done, keeps, object, alive⟩ := invariant.newlstr new unused
      exact ⟨done, keeps, ⟨congrArg (Option.map GCObject.tt) object, alive⟩, object⟩

/-! ## Open upvalues -/

theorem searchupval_some {l passed rest : List Addr} {level : Nat} {p : Addr}
    (found : g.searchupval level l = (passed, some p, rest)) : p ∈ l ∧ g.level p = some level := by
  induction l generalizing passed rest with
  | nil => cases found
  | cons q l induction =>
      rw [GlobalState.searchupval] at found
      cases is_level : g.level q with
      | none =>
          rw [is_level] at found
          cases found
      | some v =>
          rw [is_level] at found
          dsimp only at found
          split_ifs at found with below here
          · cases found
          · cases found
            exact ⟨List.mem_cons_self, here ▸ is_level⟩
          · have second : (g.searchupval level l).2.1 = some p := congrArg (·.2.1) found
            have later : g.searchupval level l =
                ((g.searchupval level l).1, some p, (g.searchupval level l).2.2) := by
              rw [← second]
            obtain ⟨member, same⟩ := induction later
            exact ⟨List.mem_cons_of_mem q member, same⟩

/-- The search stops where an upvalue for the slot has to be inserted. -/
theorem searchupval_none {l passed rest : List Addr} {level : Nat}
    (sorted : l.Pairwise fun p q => ∀ v w, g.level p = some v → g.level q = some w → w < v)
    (known : ∀ p ∈ l, (g.level p).isSome) (found : g.searchupval level l = (passed, none, rest)) :
    passed ++ rest = l ∧ (∀ p ∈ passed, ∀ v, g.level p = some v → level < v) ∧
      ∀ p ∈ rest, ∀ v, g.level p = some v → v < level := by
  induction l generalizing passed rest with
  | nil =>
      cases found
      exact ⟨rfl, fun p member => absurd member List.not_mem_nil,
        fun p member => absurd member List.not_mem_nil⟩
  | cons q l induction =>
      obtain ⟨first, sorted⟩ := List.pairwise_cons.mp sorted
      rw [GlobalState.searchupval] at found
      cases is_level : g.level q with
      | none => cases (is_level ▸ known q List.mem_cons_self)
      | some v =>
          rw [is_level] at found
          dsimp only at found
          split_ifs at found with below here
          · cases found
            refine ⟨rfl, fun p member => absurd member List.not_mem_nil, fun p member w is_w => ?_⟩
            rcases List.mem_cons.mp member with rfl | member
            · cases is_level.symm.trans is_w
              exact below
            · exact (first p member v w is_level is_w).trans below
          · cases found
          · have second : (g.searchupval level l).2.1 = none := congrArg (·.2.1) found
            have later : g.searchupval level l =
                ((g.searchupval level l).1, none, (g.searchupval level l).2.2) := by
              rw [← second]
            obtain ⟨split, above, under⟩ := induction sorted
              (fun p member => known p (List.mem_cons_of_mem q member)) later
            have passed_eq : q :: (g.searchupval level l).1 = passed := congrArg (·.1) found
            have rest_eq : (g.searchupval level l).2.2 = rest := congrArg (·.2.2) found
            subst passed_eq rest_eq
            refine ⟨congrArg (List.cons q) split, fun p member w is_w => ?_, under⟩
            rcases List.mem_cons.mp member with rfl | member
            · cases is_level.symm.trans is_w
              omega
            · exact above p member w is_w

/-- A new open upvalue is put into the list of its thread. -/
theorem Opened.insert {th : Thread} {passed rest : List Addr} {level : Nat}
    (opened : Opened object uvhead) (new : object o = none) (thread : object L = some (.thread th))
    (split : passed ++ rest = th.openupval) (below : level < th.top)
    (above : ∀ p ∈ passed, ∀ v, object p = some (.upval (.stack L v)) → level < v)
    (under : ∀ p ∈ rest, ∀ v, object p = some (.upval (.stack L v)) → v < level) :
    Opened (update (update object o (some (.upval (.stack L level)))) L
      (some (.thread { th with openupval := passed ++ o :: rest }))) (o :: uvhead) := by
  have ne : o ≠ L := by
    rintro rfl
    cases new.symm.trans thread
  set th' : Thread := { th with openupval := passed ++ o :: rest }
  set object' := update (update object o (some (.upval (.stack L level)))) L (some (.thread th'))
  have object_L : object' L = some (.thread th') := update_self _ _ _
  have object_o : object' o = some (.upval (.stack L level)) :=
    (update_of_ne ne _ _).trans (update_self _ _ _)
  have object_of_ne (p : Addr) (ne_L : p ≠ L) (ne_o : p ≠ o) : object' p = object p :=
    (update_of_ne ne_L _ _).trans (update_of_ne ne_o _ _)
  have stack_of (p M : Addr) (v : Nat) (is_open : object' p = some (.upval (.stack M v))) :
      (p = o ∧ M = L ∧ v = level) ∨ object p = some (.upval (.stack M v)) := by
    rcases eq_or_ne p L with rfl | ne_L
    · cases object_L.symm.trans is_open
    rcases eq_or_ne p o with rfl | ne_o
    · cases object_o.symm.trans is_open
      exact .inl ⟨rfl, rfl, rfl⟩
    · exact .inr ((object_of_ne p ne_L ne_o).symm.trans is_open)
  have stack_to (p M : Addr) (v : Nat) (is_open : object p = some (.upval (.stack M v))) :
      object' p = some (.upval (.stack M v)) := by
    refine (object_of_ne p ?_ ?_).trans is_open
    · rintro rfl
      cases thread.symm.trans is_open
    · rintro rfl
      cases new.symm.trans is_open
  have thread_of (M : Addr) (m : Thread) (is_thread : object' M = some (.thread m)) :
      (M = L ∧ m = th') ∨ (M ≠ L ∧ object M = some (.thread m)) := by
    rcases eq_or_ne M L with rfl | ne_L
    · cases object_L.symm.trans is_thread
      exact .inl ⟨rfl, rfl⟩
    · refine .inr ⟨ne_L, (object_of_ne M ne_L ?_).symm.trans is_thread⟩
      rintro rfl
      cases object_o.symm.trans is_thread
  have old (p : Addr) (member : p ∈ passed ++ o :: rest) (ne_o : p ≠ o) : p ∈ th.openupval := by
    rw [← split]
    simpa [ne_o] using member
  refine ⟨fun M m is_thread => ?_, fun p M v is_open => ?_, fun M m p is_thread member => ?_,
    fun M m is_thread => ?_, List.nodup_cons.mpr ⟨fun member => ?_, opened.nodup⟩, fun p => ?_⟩
  · rcases thread_of M m is_thread with ⟨rfl, rfl⟩ | ⟨-, was⟩
    · exact opened.top M th thread
    · exact opened.top M m was
  · rcases stack_of p M v is_open with ⟨rfl, rfl, rfl⟩ | was
    · exact ⟨th', object_L, List.mem_append_right _ List.mem_cons_self⟩
    · obtain ⟨m, is_thread, member⟩ := opened.mem p M v was
      rcases eq_or_ne M L with rfl | ne_L
      · cases thread.symm.trans is_thread
        refine ⟨th', object_L, ?_⟩
        rw [← split] at member
        exact (List.mem_append.mp member).elim (List.mem_append_left _) fun member =>
          List.mem_append_right _ (List.mem_cons_of_mem o member)
      · refine ⟨m, (object_of_ne M ne_L ?_).trans is_thread, member⟩
        rintro rfl
        cases new.symm.trans is_thread
  · rcases thread_of M m is_thread with ⟨rfl, rfl⟩ | ⟨-, was⟩
    · rcases eq_or_ne p o with rfl | ne_o
      · exact ⟨level, object_o, below⟩
      · obtain ⟨v, is_open, low⟩ := opened.level M th p thread (old p member ne_o)
        exact ⟨v, stack_to p M v is_open, low⟩
    · obtain ⟨v, is_open, low⟩ := opened.level M m p was member
      exact ⟨v, stack_to p M v is_open, low⟩
  · rcases thread_of M m is_thread with ⟨rfl, rfl⟩ | ⟨ne_L, was⟩
    · have sorted := opened.sorted M th thread
      rw [← split, List.pairwise_append] at sorted
      obtain ⟨sorted_passed, sorted_rest, across⟩ := sorted
      have lift {p q : Addr} (p_o : p ≠ o) (q_o : q ≠ o) (less : ∀ v w,
          object p = some (.upval (.stack M v)) → object q = some (.upval (.stack M w)) → w < v) :
          ∀ v w, object' p = some (.upval (.stack M v)) →
            object' q = some (.upval (.stack M w)) → w < v := fun v w is_v is_w =>
        less v w ((stack_of p M v is_v).resolve_left fun same => p_o same.1)
          ((stack_of q M w is_w).resolve_left fun same => q_o same.1)
      have ne_o (p : Addr) (member : p ∈ th.openupval) : p ≠ o := by
        rintro rfl
        obtain ⟨v, is_open, -⟩ := opened.level M th p thread member
        cases new.symm.trans is_open
      have ne_passed (p : Addr) (member : p ∈ passed) : p ≠ o :=
        ne_o p (split ▸ List.mem_append_left _ member)
      have ne_rest (p : Addr) (member : p ∈ rest) : p ≠ o :=
        ne_o p (split ▸ List.mem_append_right _ member)
      refine List.pairwise_append.mpr ⟨sorted_passed.imp_of_mem fun {p q} is_p is_q less =>
        lift (ne_passed p is_p) (ne_passed q is_q) less, List.pairwise_cons.mpr
          ⟨fun q is_q v w is_v is_w => ?_, sorted_rest.imp_of_mem fun {p q} is_p is_q less =>
            lift (ne_rest p is_p) (ne_rest q is_q) less⟩, fun p is_p q is_q v w is_v is_w => ?_⟩
      · cases object_o.symm.trans is_v
        exact under q is_q w ((stack_of q M w is_w).resolve_left fun same => ne_rest q is_q same.1)
      · have was := (stack_of p M v is_v).resolve_left fun same => ne_passed p is_p same.1
        rcases List.mem_cons.mp is_q with rfl | is_q
        · cases object_o.symm.trans is_w
          exact above p is_p v was
        · exact across p is_p q is_q v w was
            ((stack_of q M w is_w).resolve_left fun same => ne_rest q is_q same.1)
    · refine (opened.sorted M m was).imp fun less v w is_v is_w => ?_
      exact less v w ((stack_of _ M v is_v).resolve_left fun same => ne_L same.2.1)
        ((stack_of _ M w is_w).resolve_left fun same => ne_L same.2.1)
  · obtain ⟨M, v, is_open⟩ := (opened.mem_iff o).mp member
    cases new.symm.trans is_open
  · rw [List.mem_cons, opened.mem_iff]
    constructor
    · rintro (rfl | ⟨M, v, is_open⟩)
      · exact ⟨L, level, object_o⟩
      · exact ⟨M, v, stack_to p M v is_open⟩
    · rintro ⟨M, v, is_open⟩
      rcases stack_of p M v is_open with ⟨rfl, -, -⟩ | was
      · exact .inl rfl
      · exact .inr ⟨M, v, was⟩

theorem searchupval_sorted {th : Thread} (opened : Opened g.object g.uvhead)
    (thread : g.object L = some (.thread th)) : th.openupval.Pairwise fun p q =>
      ∀ v w, g.level p = some v → g.level q = some w → w < v := by
  refine (opened.sorted L th thread).imp_of_mem fun {p q} is_p is_q less v w is_v is_w => ?_
  obtain ⟨v', open_p, -⟩ := opened.level L th p thread is_p
  obtain ⟨w', open_q, -⟩ := opened.level L th q thread is_q
  cases (GlobalState.level_of_stack open_p).symm.trans is_v
  cases (GlobalState.level_of_stack open_q).symm.trans is_w
  exact less v w open_p open_q

theorem searchupval_known {th : Thread} (opened : Opened g.object g.uvhead)
    (thread : g.object L = some (.thread th)) : ∀ p ∈ th.openupval, (g.level p).isSome := by
  intro p member
  obtain ⟨v, is_open, -⟩ := opened.level L th p thread member
  rw [GlobalState.level_of_stack is_open]
  rfl

/-- `luaF_findupval` gives the one open upvalue of a slot. -/
theorem GlobalState.Invariant.luaFFindupval {th : Thread} {level : Nat} (invariant : g.Invariant)
    (thread : g.object L = some (.thread th)) (alive : g.isdead L = false) (below : level < th.top)
    (new : g.object o = none) :
    (g.luaFFindupval L level o).1.Invariant ∧
      (∀ r, g.Has r → (g.luaFFindupval L level o).1.Has r) ∧
      (g.luaFFindupval L level o).1.Has (.upval, (g.luaFFindupval L level o).2) ∧
      (g.luaFFindupval L level o).1.object (g.luaFFindupval L level o).2 =
        some (.upval (.stack L level)) ∧
      (∀ p, p ≠ L → p ≠ o → (g.luaFFindupval L level o).1.object p = g.object p) ∧
      ∃ l, (g.luaFFindupval L level o).1.object L = some (.thread { th with openupval := l }) := by
  have top := invariant.opened.top L th thread
  have slot : g.slot L level = th.slot level := by rw [GlobalState.slot, thread]
  have has (r : Ref) (member : r ∈ (th.slot level).refs) : g.Has r := by
    refine invariant.sound.refs L _ thread alive r ?_
    rw [GlobalState.refs, thread]
    exact Thread.refs_slot top below member
  rw [GlobalState.luaFFindupval, GlobalState.openupval_of_thread thread]
  rcases result : g.searchupval level th.openupval with ⟨passed, found, rest⟩
  cases found with
  | some p =>
      obtain ⟨member, is_level⟩ := searchupval_some result
      obtain ⟨v, is_open, -⟩ := invariant.opened.level L th p thread member
      cases (GlobalState.level_of_stack is_open).symm.trans is_level
      dsimp only
      split_ifs with dead
      · obtain ⟨done, keeps, alive⟩ := invariant.changewhite is_open dead fun r member => by
          rw [GlobalState.refs, is_open] at member
          exact has r (slot ▸ member)
        exact ⟨done, keeps, ⟨congrArg (Option.map GCObject.tt) is_open, alive⟩, is_open,
          fun _ _ _ => rfl, th.openupval, thread⟩
      · exact ⟨invariant, fun _ => id, ⟨congrArg (Option.map GCObject.tt) is_open,
          Bool.eq_false_of_not_eq_true dead⟩, is_open, fun _ _ _ => rfl, th.openupval, thread⟩
  | none =>
      obtain ⟨split, above, under⟩ :=
        searchupval_none (searchupval_sorted invariant.opened thread)
          (searchupval_known invariant.opened thread) result
      have ne : o ≠ L := by
        rintro rfl
        cases new.symm.trans thread
      set g' : GlobalState := { g with
        object := update (update g.object o (some (.upval (.stack L level)))) L
          (some (.thread { th with openupval := passed ++ o :: rest }))
        marked := update g.marked o (Marked.luaCWhite g.currentwhite)
        uvhead := o :: g.uvhead }
      have object_L : g'.object L = some (.thread { th with openupval := passed ++ o :: rest }) :=
        update_self _ _ _
      have object_o : g'.object o = some (.upval (.stack L level)) :=
        (update_of_ne ne _ _).trans (update_self _ _ _)
      have object_of_ne (p : Addr) (ne_L : p ≠ L) (ne_o : p ≠ o) : g'.object p = g.object p :=
        (update_of_ne ne_L _ _).trans (update_of_ne ne_o _ _)
      have same : ((g.setObject o (.upval (.stack L level))).setMarked o
          (Marked.luaCWhite g.currentwhite)).setOpenupval L (passed ++ o :: rest) =
            { g with object := g'.object, marked := g'.marked } := by
        have thread' : ((g.setObject o (.upval (.stack L level))).setMarked o
            (Marked.luaCWhite g.currentwhite)).object L = some (.thread th) :=
          (update_of_ne ne.symm _ _).trans thread
        rw [GlobalState.setOpenupval, thread']
        rfl
      have created : Created g g' o (.upval (.stack L level)) := by
        refine ⟨new, object_o, fun p ne_o => ?_, rfl, fun r member => ?_, fun p => id,
          fun sweeping p root later => .inr ⟨root, later⟩, rfl, fun i p => .inr,
          fun p uv member => ?_⟩
        · rcases eq_or_ne p L with rfl | ne_L
          · exact .inr ⟨th, _, thread, object_L⟩
          · exact .inl (object_of_ne p ne_L ne_o)
        · rw [GlobalState.refs, object_o] at member
          have slot' : g'.slot L level = th.slot level := by
            rw [GlobalState.slot, object_L]
            rfl
          have member : r ∈ (g'.slot L level).refs := member
          rw [slot'] at member
          exact has r member
        · rw [GlobalState.openupval] at member
          rcases eq_or_ne p L with rfl | ne_L
          · rw [object_L] at member
            rw [GlobalState.openupval_of_thread thread, ← split]
            simpa [or_left_comm] using member
          · rcases eq_or_ne p o with rfl | ne_o
            · rw [object_o] at member
              exact absurd member List.not_mem_nil
            · rw [object_of_ne p ne_L ne_o] at member
              exact .inr member
      have string_iff (p : Addr) (s : Bytes) :
          g'.object p = some (.string s) ↔ g.object p = some (.string s) := by
        rcases eq_or_ne p L with rfl | ne_L
        · rw [object_L, thread]
          simp
        · rcases eq_or_ne p o with rfl | ne_o
          · rw [object_o, new]
            simp
          · rw [object_of_ne p ne_L ne_o]
      have done : g'.Invariant := by
        refine created.invariant invariant (invariant.rooted.congr (fun p => ?_) fun p => ?_)
          (invariant.interned.congr string_iff) (invariant.opened.insert new thread split below
            (fun p member v is_open => above p member v (GlobalState.level_of_stack is_open))
            fun p member v is_open => under p member v (GlobalState.level_of_stack is_open))
        · rcases eq_or_ne p L with rfl | ne_L
          · rw [object_L, thread]
            exact ⟨fun _ => ⟨_, rfl, rfl⟩, fun _ => ⟨_, rfl, rfl⟩⟩
          · rcases eq_or_ne p o with rfl | ne_o
            · rw [object_o, new]
              simp [GCObject.rooted]
            · rw [object_of_ne p ne_L ne_o]
        · rcases eq_or_ne p L with rfl | ne_L
          · rw [object_L, thread]
            simp
          · rcases eq_or_ne p o with rfl | ne_o
            · rw [object_o, new]
              simp
            · rw [object_of_ne p ne_L ne_o]
      dsimp only
      rw [show Marked.luaCWhite (g.setObject o (.upval (.stack L level))).currentwhite =
        Marked.luaCWhite g.currentwhite from rfl, same]
      refine ⟨done, fun r => created.has, ⟨congrArg (Option.map GCObject.tt) object_o,
        (created.fresh invariant.coloured.white).2⟩, object_o, object_of_ne,
        passed ++ o :: rest, object_L⟩

end Create

end LuaScript.GC
