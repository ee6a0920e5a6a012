import LuaScript.Sweep

/-!
# Stores and barriers

The program changes the contents of an object and then calls a barrier.  During a marking, a forward
barrier marks the new reference of a black object, and a back barrier makes a black table gray again;
stacks and open upvalues need no barrier, as they are never black.
-/

namespace LuaScript.GC

open Function

section Contents

variable {g : GlobalState} {o p : Addr} {x x' : GCObject} {W : Addr → Prop}

namespace GlobalState

theorem held_setObject_of_ne (ne : p ≠ o)
    (slot : ∀ L level, g.object p = some (.upval (.stack L level)) →
      (g.setObject o x').slot L level = g.slot L level) :
    (g.setObject o x').held p = g.held p := by
  rw [held, held, object_setObject_of_ne ne]
  cases object : g.object p with
  | none => rfl
  | some y =>
      cases y with
      | upval uv =>
          cases uv with
          | own v => rfl
          | stack L level => exact congrArg TValue.refs (slot L level object)
      | string s => rfl
      | table h => rfl
      | function cl => rfl
      | userdata u => rfl
      | thread th => rfl
      | proto f => rfl

/-- Only the slots of a changed thread may have changed. -/
theorem slot_setObject_of_ne {L level : Nat} (ne : L ≠ o) :
    (g.setObject o x').slot L level = g.slot L level := by
  rw [slot, slot, object_setObject_of_ne ne]

theorem openupval_setObject (alike : Alike x x') (was : g.object o = some x) (p : Addr) :
    (g.setObject o x').openupval p = g.openupval p := by
  rw [openupval, openupval]
  rcases eq_or_ne p o with rfl | ne
  · rw [object_setObject_self, was]
    cases alike with
    | thread top openupval => exact openupval
    | table h h' => rfl
    | function cl cl' => rfl
    | userdata u u' => rfl
    | proto f f' => rfl
    | own v v' => rfl
  · rw [object_setObject_of_ne ne]

theorem exists_of_setObject (was : g.object o = some x) (alike : Alike x x') {y : GCObject}
    (object : (g.setObject o x').object p = some y) :
    ∃ z, g.object p = some z ∧ z.listed = y.listed := by
  rcases eq_or_ne p o with rfl | ne
  · rw [object_setObject_self] at object
    exact ⟨x, was, Option.some.inj object ▸ alike.listed.symm⟩
  · rw [object_setObject_of_ne ne] at object
    exact ⟨y, object, rfl⟩

/-- The marking is as complete as before, apart from the object and the upvalues into it. -/
theorem Marking.setObject (marking : g.Marking W) (alike : Alike x x') (was : g.object o = some x)
    (opens : ∀ uv level, g.object uv = some (.upval (.stack o level)) → W uv) :
    (g.setObject o x').Marking fun p => W p ∨ p = o where
  alive p y object := by
    obtain ⟨z, object, -⟩ := exists_of_setObject was alike object
    exact marking.alive p z object
  listed := by
    refine ⟨marking.listed.nodup, fun p member => ?_, fun p y object listed gray => ?_⟩
    · obtain ⟨y, object, listed, gray⟩ := marking.listed.mem p member
      rcases eq_or_ne p o with rfl | ne
      · rw [was] at object
        cases object
        exact ⟨x', object_setObject_self, alike.listed.trans listed, gray⟩
      · exact ⟨y, (object_setObject_of_ne ne).trans object, listed, gray⟩
    · obtain ⟨z, object, same⟩ := exists_of_setObject was alike object
      exact marking.listed.listed p z object (same.trans listed) gray
  covers p found := by
    rcases eq_or_ne p o with rfl | ne
    · exact .inl (.inr (.inr rfl))
    by_cases into : ∃ level, g.object p = some (.upval (.stack o level))
    · obtain ⟨level, is_open⟩ := into
      exact .inl (.inr (.inl (opens p level is_open)))
    · refine (marking.covers p found).imp (Or.imp_right .inl) fun settled => ?_
      rintro q ⟨tag, leads⟩
      have held : (g.setObject o x').held p = g.held p := by
        refine held_setObject_of_ne ne fun L level is_open => slot_setObject_of_ne ?_
        rintro rfl
        exact into ⟨level, is_open⟩
      have strong : (g.setObject o x').strong p = g.strong p := by
        rw [strong, strong, held, object_setObject_of_ne ne]
        rfl
      exact settled q ⟨tag, strong ▸ leads⟩
  main := marking.main
  registry := marking.registry

theorem Sweeping.setObject (sweeping : g.Sweeping) (alike : Alike x x')
    (was : g.object o = some x) : (g.setObject o x').Sweeping := by
  refine sweeping.step rfl rfl rfl (fun _ => rfl) (fun _ => id) (fun _ _ => .inr) sweeping.cursor
    (fun p root later => .inr ⟨⟨root, later⟩, fun uv member => .inr ?_⟩) (fun _ => id) fun _ => id
  rwa [openupval_setObject alike was] at member

theorem Clean.setObject (clean : g.Clean) (alike : Alike x x') (was : g.object o = some x) :
    (g.setObject o x').Clean where
  alive p y object := by
    obtain ⟨z, object, -⟩ := exists_of_setObject was alike object
    exact clean.alive p z object
  white p y object outside := by
    obtain ⟨z, object, -⟩ := exists_of_setObject was alike object
    exact clean.white p z object outside

/-- The new contents of an object refer to live objects. -/
theorem Formed.contents (formed : g.Formed) (alike : Alike x x') (was : g.object o = some x)
    (thread : x.tt ≠ .thread) (refs : ∀ r ∈ (g.setObject o x').refs o, g.Has r) :
    (g.setObject o x').Formed := by
  refine formed.setObject alike was (fun th same => ?_) fun p y object alive r member => ?_
  · have tt := alike.tt
    rw [same] at tt
    exact absurd tt.symm thread
  · rcases eq_or_ne p o with rfl | ne
    · exact refs r member
    · rw [object_setObject_of_ne ne] at object
      rw [refs_setObject_of_ne ne fun L level _ => by rw [slot_setObject was alike thread]]
        at member
      exact formed.sound.refs p y object alive r member

/-- The open upvalues and the other waiting objects stay the same. -/
theorem waiting_setObject (was : g.object o = some x) (alike : Alike x x') :
    (g.setObject o x').waiting = g.waiting := by
  funext p
  have level : (g.setObject o x').level p = g.level p := by
    rw [level, level]
    rcases eq_or_ne p o with rfl | ne
    · rw [object_setObject_self, was]
      cases alike <;> rfl
    · rw [object_setObject_of_ne ne]
  rw [waiting, waiting, level]
  rfl

end GlobalState

/-! ## Black objects -/

/-- During a marking, an object that is not white waits, or it is black and holds nothing white. -/
theorem GlobalState.Marking.black_or (marking : g.Marking g.waiting) (formed : g.Formed)
    (object : g.object o = some x) (kind : x.listed ∨ x.mayGray = false)
    (found : g.iswhite o = false) :
    (o ∈ g.gray ∨ g.waiting o) ∨ g.isblack o ∧ ∀ r ∈ g.strong o, g.iswhite r.2 = false := by
  by_cases black : g.isblack o
  · rcases marking.covers o ((Bool.not_eq_true _).mpr found) with waits | settled
    · exact .inl waits
    · exact .inr ⟨black, fun r member => Bool.eq_false_of_not_eq_true (settled r.2 ⟨r.1, member⟩)⟩
  · left
    have gray : (g.marked o).isgray := by
      have black' : (g.marked o).isblack = false := Bool.eq_false_of_not_eq_true black
      rw [GlobalState.iswhite] at found
      simp [Marked.isgray, black', found]
    rcases kind with listed | other
    · have member := marking.listed.listed o x object listed gray
      rw [List.mem_append, List.mem_append] at member
      exact member.imp_right fun member => member.elim .inl fun member => .inr (.inl member)
    · have may := (formed.coloured.each o x object).gray gray
      rw [other] at may
      cases may

/-! ## Stores without a barrier -/

namespace GlobalState

theorem Marking.waiting_of_stack (marking : g.Marking g.waiting) (alike : Alike x x')
    (was : g.object o = some x) :
    (g.setObject o x').Marking fun p => (g.setObject o x').waiting p ∨ p = o := by
  rw [waiting_setObject was alike]
  exact marking.setObject alike was fun uv level is_open => .inr (.inr (.inl (by
    rw [level_of_stack is_open]
    rfl)))

/-- An object gets other contents, and needs no barrier. -/
theorem Invariant.setObject (invariant : g.Invariant) (alike : Alike x x')
    (was : g.object o = some x) (formed : (g.setObject o x').Formed)
    (ready : g.gcstate = .propagate → g.Marking g.waiting → g.iswhite o = false →
      (o ∈ g.gray ∨ g.waiting o) ∨ ∀ r ∈ (g.setObject o x').strong o, g.iswhite r.2 = false) :
    (g.setObject o x').Invariant := by
  rcases phase_iff.mp invariant.phase with ⟨state, marking⟩ | ⟨state, sweeping⟩ | ⟨state, clean⟩
  · refine Invariant.of_finds (g := g.setObject o x') (l := []) state formed
      (marking.waiting_of_stack alike was) Finds.nil ?_
    rw [waiting_setObject was alike]
    exact ready state marking
  · exact ⟨formed, phase_iff.mpr (.inr (.inl ⟨state, sweeping.setObject alike was⟩))⟩
  · exact ⟨formed, phase_iff.mpr (.inr (.inr ⟨state, clean.setObject alike was⟩))⟩

end GlobalState

theorem Thread.refs_slot {th : Thread} {level : Nat} (top : th.top ≤ th.stack.length)
    (below : level < th.top) {r : Ref} (member : r ∈ (th.slot level).refs) : r ∈ th.refs := by
  refine List.mem_append_right _ (List.mem_flatMap.mpr ⟨th.slot level, ?_, member⟩)
  have inside : level < th.stack.length := by omega
  rw [slot, List.getD_eq_getElem?_getD, List.getElem?_eq_getElem inside, Option.getD_some]
  exact List.mem_take_iff_getElem.mpr ⟨level, by omega, rfl⟩

/-- What an open upvalue of a changed thread refers to. -/
theorem GlobalState.refs_setObject_thread {L : Addr} {th : Thread} {r : Ref} (ne : p ≠ L)
    (member : r ∈ (g.setObject L (.thread th)).refs p) :
    r ∈ g.refs p ∨
      ∃ level, g.object p = some (.upval (.stack L level)) ∧ r ∈ (th.slot level).refs := by
  by_cases into : ∃ level, g.object p = some (.upval (.stack L level))
  · obtain ⟨level, is_open⟩ := into
    rw [refs, object_setObject_of_ne ne, is_open] at member
    have slot : (g.setObject L (.thread th)).slot L level = th.slot level := by
      rw [GlobalState.slot, object_setObject_self]
    have member : r ∈ ((g.setObject L (.thread th)).slot L level).refs := member
    exact .inr ⟨level, is_open, slot ▸ member⟩
  · rw [refs_setObject_of_ne ne fun L' level is_open => slot_setObject_of_ne ?_] at member
    · exact .inl member
    · rintro rfl
      exact into ⟨level, is_open⟩

/-- A thread gets other contents, perhaps a dead one: threads need no barrier. -/
theorem GlobalState.Invariant.setStack {L : Addr} {th th' : Thread} (invariant : g.Invariant)
    (thread : g.object L = some (.thread th)) (openupval : th'.openupval = th.openupval)
    (top : th'.top ≤ th'.stack.length)
    (levels : ∀ uv level, g.object uv = some (.upval (.stack L level)) → level < th'.top)
    (refs : g.isdead L = false → ∀ r ∈ th'.refs, g.Has r)
    (slots : ∀ uv level, g.object uv = some (.upval (.stack L level)) → g.isdead uv = false →
      ∀ r ∈ (th'.slot level).refs, g.Has r) : (g.setObject L (.thread th')).Invariant := by
  have alike : Alike (.thread th) (.thread th') := .thread top openupval
  have formed : (g.setObject L (.thread th')).Formed := by
    refine invariant.toFormed.setObject alike thread (fun th'' same uv _ level is_open => ?_)
      fun p y object alive r member => ?_
    · cases same
      exact levels uv level is_open
    · rcases eq_or_ne p L with rfl | ne
      · rw [GlobalState.refs, GlobalState.object_setObject_self] at member
        exact refs alive r member
      · rw [GlobalState.object_setObject_of_ne ne] at object
        rcases GlobalState.refs_setObject_thread ne member with member | ⟨level, is_open, member⟩
        · exact invariant.sound.refs p y object alive r member
        · exact slots p level is_open alive r member
  refine invariant.setObject alike thread formed fun _ marking found => .inl ?_
  rcases marking.black_or invariant.toFormed thread (.inl rfl) found with waits | ⟨black, -⟩
  · exact waits
  · cases (invariant.coloured.each L _ thread).black black

theorem GlobalState.Invariant.setThread {L : Addr} {th th' : Thread} (invariant : g.Invariant)
    (thread : g.object L = some (.thread th)) (openupval : th'.openupval = th.openupval)
    (top : th'.top ≤ th'.stack.length)
    (levels : ∀ uv level, g.object uv = some (.upval (.stack L level)) → level < th'.top)
    (refs : ∀ r ∈ th'.refs, g.Has r) : (g.setObject L (.thread th')).Invariant :=
  invariant.setStack thread openupval top levels (fun _ => refs)
    fun uv level is_open _ r member => refs r (Thread.refs_slot top (levels uv level is_open) member)

/-! ## Stores with a barrier -/

/-- A live object gets the current white when no marking is in progress. -/
theorem GlobalState.Invariant.whiten (invariant : g.Invariant) (object : g.object o = some x)
    (alive : g.isdead o = false) (state : g.gcstate ≠ .propagate) : (g.makewhite o).Invariant := by
  rcases GlobalState.phase_iff.mp invariant.phase with ⟨again, -⟩ | ⟨swept, -⟩ | ⟨paused, clean⟩
  · exact absurd again state
  · have kept : g.kept o := by
      rw [invariant.toFormed.kept_eq object, alive]
      rfl
    exact (invariant.sweep_whiten swept object kept).1
  · have fresh : (g.makewhite o).Fresh o := GlobalState.fresh_makewhite invariant.coloured.white
    refine ⟨invariant.toFormed.whiten object (.inl alive),
      GlobalState.phase_iff.mpr (.inr (.inr
        ⟨paused, fun p y object => ?_, fun p y object outside => ?_⟩))⟩
    · rcases eq_or_ne p o with rfl | ne
      · exact fresh.2
      · rw [GlobalState.isdead, GlobalState.makewhite, GlobalState.marked_setMarked_of_ne ne]
        exact clean.alive p y object
    · rcases eq_or_ne p o with rfl | ne
      · exact fresh.1
      · rw [GlobalState.iswhite, GlobalState.makewhite, GlobalState.marked_setMarked_of_ne ne]
        exact clean.white p y object outside

/-- Only the barrier of a black object has an effect. -/
theorem luaCBarrier_of_not_black {v : TValue} (black : g.isblack o = false) :
    g.luaCBarrier o v = g := by
  rw [GlobalState.luaCBarrier]
  cases v.ref with
  | none => rfl
  | some r => simp [GlobalState.luaCObjbarrier, black]

theorem luaCBarrier_of_ne_propagate {v : TValue} (state : g.gcstate ≠ .propagate) :
    g.luaCBarrier o v = g ∨ g.luaCBarrier o v = g.makewhite o := by
  rw [GlobalState.luaCBarrier]
  cases v.ref with
  | none => exact .inl rfl
  | some r =>
      dsimp only
      rw [GlobalState.luaCObjbarrier, GlobalState.luaCBarrierf, if_neg state]
      split_ifs
      · exact .inr rfl
      · exact .inl rfl

theorem GlobalState.strong_of_not_weak (weak : o ∉ g.weak) : g.strong o = g.held o := by
  rw [GlobalState.strong]
  split
  · rw [if_neg weak]
  · rfl

theorem GlobalState.Marking.not_weak {W : Addr → Prop} (marking : g.Marking W)
    (black : g.isblack o) : o ∉ g.weak := by
  intro member
  obtain ⟨y, -, -, gray⟩ :=
    marking.listed.mem o (List.mem_append_right _ (List.mem_append_right _ member))
  rw [GlobalState.isblack] at black
  simp [Marked.isgray, black] at gray

theorem Alike.listed_or (alike : Alike x x') : x.listed ∨ x.mayGray = false := by
  cases alike with
  | table h h' => exact .inl rfl
  | function cl cl' => exact .inl rfl
  | userdata u u' => exact .inr rfl
  | proto f f' => exact .inl rfl
  | own v v' => exact .inr rfl
  | thread top openupval => exact .inl rfl

/-- An object gets other contents, with the references of one more value, and a forward barrier
follows. -/
theorem GlobalState.Invariant.barrier {v : TValue} (invariant : g.Invariant) (alike : Alike x x')
    (was : g.object o = some x) (thread : x.tt ≠ .thread) (alive : g.isdead o = false)
    (refs : ∀ r ∈ (g.setObject o x').refs o, g.Has r) (new : ∀ r ∈ v.refs, g.Has r)
    (held : ∀ r ∈ (g.setObject o x').held o, r ∈ g.held o ∨ r ∈ v.refs) :
    ((g.setObject o x').luaCBarrier o v).Invariant := by
  have formed : (g.setObject o x').Formed := invariant.toFormed.contents alike was thread refs
  rcases eq_or_ne g.gcstate .propagate with state | state
  · have marking : g.Marking g.waiting := by
      have phase := invariant.phase
      rw [GlobalState.Phase, state] at phase
      exact phase
    by_cases black : g.isblack o
    · have marking' := marking.waiting_of_stack alike was
      have within := formed.within marking'.alive
      have tt : (g.setObject o x').tt = g.tt := GlobalState.tt_setObject was alike.tt
      have finds : Finds (fun p => ((g.setObject o x').object p).isSome) v.refs (g.setObject o x')
          ((g.setObject o x').luaCBarrier o v) :=
        luaCBarrier_finds (g := g.setObject o x') state black within.region fun r member => by
          have typed : (g.setObject o x').tt r.2 = some r.1 := tt ▸ (new r member).1
          obtain ⟨y, object, -⟩ := Option.map_eq_some_iff.mp typed
          exact ⟨Option.isSome_of_eq_some object, typed⟩
      have white : g.iswhite o = false :=
        (invariant.coloured.each o x was).proper.1 black
      have weak : o ∉ g.weak := marking.not_weak black
      refine GlobalState.Invariant.of_finds (g := g.setObject o x') state formed marking' finds
        fun _ => ?_
      rw [GlobalState.waiting_setObject was alike]
      rcases marking.black_or invariant.toFormed was alike.listed_or white with
        (gray | waits) | ⟨-, settled⟩
      · obtain ⟨l, gray', -⟩ := finds.gray
        exact .inl (.inl (gray' ▸ List.mem_append_right l gray))
      · exact .inl (.inr waits)
      · right
        intro r member
        rw [GlobalState.strong_of_not_weak (finds.weak ▸ weak), finds.held] at member
        rw [GlobalState.strong_of_not_weak weak] at settled
        rcases held r member with old | added
        · exact finds.not_white (settled r old)
        · exact finds.found r added
    · have black : (g.setObject o x').isblack o = false := Bool.eq_false_of_not_eq_true black
      rw [luaCBarrier_of_not_black black]
      refine invariant.setObject alike was formed fun _ marking found => .inl ?_
      rcases marking.black_or invariant.toFormed was alike.listed_or found with waits | ⟨again, -⟩
      · exact waits
      · cases again.symm.trans black
  · have stored : (g.setObject o x').Invariant :=
      invariant.setObject alike was formed fun again => absurd again state
    rcases luaCBarrier_of_ne_propagate (o := o) (v := v) (g := g.setObject o x') state with
      same | same
    · rw [same]
      exact stored
    · rw [same]
      exact stored.whiten GlobalState.object_setObject_self alive state

/-! ## Stores into tables -/

/-- The back barrier of a table has an effect only when the table is black. -/
theorem luaCBarriert_cases {t : Addr} (v : TValue) :
    (g.luaCBarriert t v = g ∧ (g.isblack t → ∀ r ∈ v.refs, g.iswhite r.2 = false)) ∨
      (g.luaCBarriert t v = g.luaCBarrierback t ∧ g.isblack t) := by
  rw [GlobalState.luaCBarriert]
  cases ref : v.ref with
  | none =>
      refine .inl ⟨rfl, fun _ r member => ?_⟩
      rw [TValue.refs, ref] at member
      exact absurd member List.not_mem_nil
  | some r =>
      obtain ⟨tag, o⟩ := r
      dsimp only
      rw [GlobalState.luaCObjbarriert]
      split_ifs with fires
      · rw [Bool.and_eq_true] at fires
        exact .inr ⟨rfl, fires.2⟩
      · refine .inl ⟨rfl, fun black r member => ?_⟩
        rw [TValue.refs, ref] at member
        rw [List.mem_singleton.mp (show r ∈ [(tag, o)] from member)]
        simpa [black] using fires

theorem GlobalState.iswhite_black2gray (p : Addr) : (g.black2gray o).iswhite p = g.iswhite p := by
  rw [GlobalState.black2gray, GlobalState.iswhite_setMarked]
  split_ifs with same
  · rw [same]
    exact Marked.iswhite_black2gray
  · rfl

/-- A black table becomes gray again. -/
theorem GlobalState.Marking.barrierback {h : Table} (formed : g.Formed)
    (marking : g.Marking fun p => g.waiting p ∨ p = o) (object : g.object o = some (.table h))
    (black : g.isblack o) : (g.luaCBarrierback o).Marking (g.luaCBarrierback o).waiting := by
  have white : g.iswhite o = false := (formed.coloured.each o _ object).proper.1 black
  have outside : o ∉ g.gray ++ (g.grayagain ++ g.weak) := by
    intro member
    obtain ⟨y, -, -, gray⟩ := marking.listed.mem o member
    rw [GlobalState.isblack] at black
    simp [Marked.isgray, black] at gray
  have lists : (g.gray ++ (o :: g.grayagain ++ g.weak)).Perm
      (o :: (g.gray ++ (g.grayagain ++ g.weak))) := List.perm_middle
  have iswhite (p : Addr) : (g.luaCBarrierback o).iswhite p = g.iswhite p :=
    GlobalState.iswhite_black2gray p
  have marked (p : Addr) (ne : p ≠ o) : (g.luaCBarrierback o).marked p = g.marked p :=
    GlobalState.marked_setMarked_of_ne ne
  have gray : ((g.luaCBarrierback o).marked o).isgray := by
    rw [show (g.luaCBarrierback o).marked o = (g.marked o).black2gray from
      GlobalState.marked_setMarked_self]
    rw [GlobalState.iswhite] at white
    simp [Marked.isgray, white]
  refine ⟨fun p y object => ?_, ⟨lists.nodup_iff.mpr (List.nodup_cons.mpr ⟨outside,
    marking.listed.nodup⟩), fun p member => ?_, fun p y object_p listed is_gray => ?_⟩,
    fun p found => ?_, (iswhite _).trans marking.main,
    fun r member => (iswhite _).trans (marking.registry r member)⟩
  · rcases eq_or_ne p o with rfl | ne
    · exact GlobalState.isdead_eq_false ((iswhite p).trans white)
    · rw [GlobalState.isdead, marked p ne]
      exact marking.alive p y object
  · rcases List.mem_cons.mp (lists.mem_iff.mp member) with rfl | old
    · exact ⟨_, object, rfl, gray⟩
    · obtain ⟨y, object, listed, is_gray⟩ := marking.listed.mem p old
      have ne : p ≠ o := by
        rintro rfl
        exact outside old
      exact ⟨y, object, listed, marked p ne ▸ is_gray⟩
  · refine lists.mem_iff.mpr ?_
    rcases eq_or_ne p o with rfl | ne
    · exact List.mem_cons_self
    · refine List.mem_cons_of_mem o (marking.listed.listed p y object_p listed ?_)
      exact marked p ne ▸ is_gray
  · have found : ¬g.iswhite p := iswhite p ▸ found
    rcases eq_or_ne p o with rfl | ne
    · exact .inl (.inr (.inl List.mem_cons_self))
    rcases marking.covers p found with (gray | waits | same) | settled
    · exact .inl (.inl gray)
    · exact .inl (.inr (waits.imp_left (List.mem_cons_of_mem o)))
    · exact absurd same ne
    · right
      rintro q ⟨tag, member⟩
      have strong : (g.luaCBarrierback o).strong p = g.strong p := by
        rw [GlobalState.strong, GlobalState.strong, marked p ne]
        rfl
      rw [strong] at member
      show ¬(g.luaCBarrierback o).iswhite q
      rw [iswhite]
      exact settled q ⟨tag, member⟩

/-- A table gets other entries, with the references of one more value, and a back barrier follows. -/
theorem GlobalState.Invariant.barriert {h h' : Table} {v : TValue} (invariant : g.Invariant)
    (table : g.object o = some (.table h))
    (refs : ∀ r ∈ (g.setObject o (.table h')).refs o, g.Has r)
    (held : ∀ r ∈ (g.setObject o (.table h')).held o, r ∈ g.held o ∨ r ∈ v.refs) :
    ((g.setObject o (.table h')).luaCBarriert o v).Invariant := by
  have alike : Alike (.table h) (.table h') := .table h h'
  have formed : (g.setObject o (.table h')).Formed :=
    invariant.toFormed.contents alike table (by simp [GCObject.tt]) refs
  rcases luaCBarriert_cases (g := g.setObject o (.table h')) (t := o) v with
    ⟨same, found⟩ | ⟨same, black⟩
  · rw [same]
    refine invariant.setObject alike table formed fun state marking white => ?_
    rcases marking.black_or invariant.toFormed table (.inl rfl) white with waits | ⟨black, settled⟩
    · exact .inl waits
    · right
      intro r member
      have weak := marking.not_weak black
      rw [GlobalState.strong_of_not_weak weak] at settled
      rw [GlobalState.strong_of_not_weak (g := g.setObject o (.table h')) weak] at member
      rcases held r member with old | added
      · exact settled r old
      · exact found black r added
  · rw [same]
    have object : (g.setObject o (.table h')).object o = some (.table h') :=
      GlobalState.object_setObject_self
    have proper := (formed.coloured.each o _ object).proper
    have white : g.iswhite o = false := proper.1 black
    have alive : Marked.isdead g.currentwhite (g.marked o).black2gray = false :=
      Marked.isdead_eq_false (Marked.iswhite_black2gray.trans white)
    have formed' : ((g.setObject o (.table h')).luaCBarrierback o).Formed := by
      refine (formed.setMarked object ⟨proper.black2gray, fun again => ?_, fun _ => rfl⟩
        (fun r member => ?_) alive Marked.isfixed_black2gray).lists
      · rw [Marked.isblack_black2gray] at again
        cases again
      · exact formed.sound.refs o _ object (Marked.isdead_eq_false white) r member
    refine ⟨formed', GlobalState.phase_iff.mpr ?_⟩
    rcases GlobalState.phase_iff.mp invariant.phase with ⟨state, marking⟩ | ⟨state, sweeping⟩ |
      ⟨state, clean⟩
    · exact .inl ⟨state, (marking.waiting_of_stack alike table).barrierback formed object black⟩
    · refine .inr (.inl ⟨state, (sweeping.setObject alike table).step rfl rfl rfl (fun _ => rfl)
        (fun p fresh => ?_) (fun _ _ => .inr) (sweeping.setObject alike table).cursor
        (fun p root later => .inr ⟨⟨root, later⟩, fun _ => .inr⟩) (fun _ => id) fun p alive_p => ?_⟩)
      · have ne : p ≠ o := by
          rintro rfl
          cases fresh.1.symm.trans white
        refine ⟨(GlobalState.iswhite_black2gray p).trans fresh.1, ?_⟩
        rw [GlobalState.isdead, show ((g.setObject o (.table h')).luaCBarrierback o).marked p =
          g.marked p from GlobalState.marked_setMarked_of_ne ne]
        exact fresh.2
      · rcases eq_or_ne p o with rfl | ne
        · rw [GlobalState.isdead, show ((g.setObject p (.table h')).luaCBarrierback p).marked p =
            (g.marked p).black2gray from GlobalState.marked_setMarked_self]
          exact alive
        · rw [GlobalState.isdead, show ((g.setObject o (.table h')).luaCBarrierback o).marked p =
            g.marked p from GlobalState.marked_setMarked_of_ne ne]
          exact alive_p
    · have again := clean.white o _ table fun member => by
        obtain ⟨u, userdata⟩ := invariant.rooted.tmudata o member
        cases table.symm.trans userdata
      cases again.symm.trans white

end Contents

end LuaScript.GC
