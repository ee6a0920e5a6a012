import LuaScript.PropagateAll

/-!
# Userdata to be finalized

`luaC_separateudata` moves the white userdata with finalizers to a list of their own, and `marktmu`
marks them: they live until their finalizers have been called.
-/

namespace LuaScript.GC

open Function

/-! ## Separation -/

/-- Userdata have been moved to the list of those to be finalized. -/
structure Separated (g g' : GlobalState) : Prop where
  frame : g' = { g with marked := g'.marked, rootgc := g'.rootgc, tmudata := g'.tmudata }
  white : g'.iswhite = g.iswhite
  old : ∀ o ∈ g.tmudata, o ∈ g'.tmudata
  new : ∀ o ∈ g'.tmudata, o ∈ g.tmudata ∨
    ∃ u, g.object o = some (.userdata u) ∧ g.gfasttm u.metatable g.tmGc ≠ .nil

section Separate

variable {R W : Addr → Prop} {g g' g'' : GlobalState} {o : Addr} {u : Udata}

theorem Separated.refl : Separated g g := ⟨rfl, rfl, fun _ => id, fun _ => .inl⟩

theorem Separated.trans (first : Separated g g') (second : Separated g' g'') : Separated g g'' where
  frame := by
    rw [second.frame, first.frame]
  white := second.white.trans first.white
  old o member := second.old o (first.old o member)
  new o member := by
    rcases second.new o member with member | ⟨u, userdata, needed⟩
    · exact first.new o member
    · rw [first.frame] at userdata needed
      exact .inr ⟨u, userdata, needed⟩

theorem Rooted.not_main {object : Addr → Option GCObject} {rootgc tmudata : List Addr}
    {mainthread : Addr} (rooted : Rooted object rootgc tmudata mainthread)
    (member : o ∈ GlobalState.after mainthread rootgc) : o ≠ mainthread := by
  rintro rfl
  exact GlobalState.not_mem_after (List.nodup_append.mp rooted.nodup).1 rooted.main member

/-- A userdata moves to the other list. -/
theorem Rooted.separate {object : Addr → Option GCObject} {rootgc tmudata : List Addr}
    {mainthread : Addr} (rooted : Rooted object rootgc tmudata mainthread)
    (member : o ∈ GlobalState.after mainthread rootgc) :
    Rooted object (rootgc.erase o) (tmudata ++ [o]) mainthread := by
  have ne := rooted.not_main member
  obtain ⟨root, userdata⟩ := (rooted.after o).mp member
  have nodup := (List.nodup_append.mp rooted.nodup).1
  have perm : (rootgc.erase o ++ (tmudata ++ [o])).Perm (rootgc ++ tmudata) := by
    rw [← List.append_assoc]
    refine List.perm_append_comm.trans ?_
    exact (List.perm_cons_erase root).symm.append_right tmudata
  refine ⟨perm.nodup_iff.mpr rooted.nodup, fun p => ?_, fun p member => ?_, ?_, fun p => ?_⟩
  · rw [perm.mem_iff, rooted.mem_iff]
  · rcases List.mem_append.mp member with member | member
    · exact rooted.tmudata p member
    · rw [List.mem_singleton.mp member]
      exact userdata
  · exact (nodup.mem_erase_iff).mpr ⟨ne.symm, rooted.main⟩
  · rw [GlobalState.mem_after_erase nodup rooted.main ne, rooted.after, nodup.mem_erase_iff]
    tauto

theorem Ongoing.markfinalized (ongoing : Ongoing R W g) (object : g.object o = some (.userdata u)) :
    Ongoing R W (g.markfinalized o) ∧ (g.markfinalized o).iswhite = g.iswhite := by
  have white : (g.markfinalized o).iswhite = g.iswhite := by
    funext p
    rw [GlobalState.markfinalized, GlobalState.iswhite_setMarked]
    split_ifs with same
    · rw [same, Marked.iswhite_markfinalized]
      rfl
    · rfl
  have alive := ongoing.marking.alive o _ object
  have coloured := ongoing.formed.coloured.each o _ object
  have not_dead : Marked.isdead g.currentwhite (g.marked o).markfinalized = false := by
    rw [ongoing.formed.coloured.white.isdead_markfinalized]
    exact alive
  have ne {p : Addr} {y : GCObject} (object_p : g.object p = some y) (listed : y.listed) :
      p ≠ o := by
    rintro rfl
    cases object.symm.trans object_p
    cases listed
  have strong (p : Addr) : (g.markfinalized o).strong p = g.strong p := by
    rcases eq_or_ne p o with rfl | ne
    · simp only [GlobalState.strong, GlobalState.markfinalized, GlobalState.setMarked, object]
      rfl
    · simp only [GlobalState.strong, GlobalState.markfinalized,
        GlobalState.marked_setMarked_of_ne ne]
      rfl
  refine ⟨⟨?_, ⟨fun p y object_p => ?_, ?_, ?_, ?_, ?_⟩, ?_⟩, white⟩
  · refine ongoing.formed.setMarked object ⟨coloured.proper.markfinalized, fun _ => rfl, ?_⟩
      (ongoing.formed.sound.refs o _ object alive) not_dead Marked.isfixed_markfinalized
    intro gray
    exact coloured.gray (by simpa [Marked.isgray] using gray)
  · rcases eq_or_ne p o with rfl | ne
    · rw [GlobalState.isdead, GlobalState.markfinalized, GlobalState.marked_setMarked_self]
      exact not_dead
    · rw [GlobalState.isdead, GlobalState.markfinalized, GlobalState.marked_setMarked_of_ne ne]
      exact ongoing.marking.alive p y object_p
  · refine ⟨ongoing.marking.listed.nodup, fun p member => ?_, fun p y object_p listed gray => ?_⟩
    · obtain ⟨y, object_p, listed, gray⟩ := ongoing.marking.listed.mem p member
      refine ⟨y, object_p, listed, ?_⟩
      rw [GlobalState.markfinalized, GlobalState.marked_setMarked_of_ne (ne object_p listed)]
      exact gray
    · rw [GlobalState.markfinalized, GlobalState.marked_setMarked_of_ne (ne object_p listed)] at gray
      exact ongoing.marking.listed.listed p y object_p listed gray
  · refine Tricolour.Covered.step ongoing.marking.covers (fun p => ?_) (fun p white_p found => ?_)
      (fun p _ waits => .inl waits) fun p _ => .inr fun q => ?_
    · rw [white]
      exact id
    · rw [white] at found
      exact absurd white_p found
    · rintro ⟨tag, leads⟩
      rw [strong] at leads
      exact ⟨tag, leads⟩
  · rw [white]
    exact ongoing.marking.main
  · rw [white]
    exact ongoing.marking.registry
  · refine ⟨⟨ongoing.within.region.object, ongoing.within.region.traced⟩,
      fun p y object_p found => ?_⟩
    rw [white] at found
    exact ongoing.within.inside p y object_p found

theorem Ongoing.move (ongoing : Ongoing R W g) (object : g.object o = some (.userdata u))
    (member : o ∈ GlobalState.after g.mainthread g.rootgc) :
    Ongoing R W { g with rootgc := g.rootgc.erase o, tmudata := g.tmudata ++ [o] } where
  formed :=
    { coloured := ongoing.formed.coloured
      rooted := ongoing.formed.rooted.separate member
      interned := ongoing.formed.interned
      opened := ongoing.formed.opened
      names := ongoing.formed.names
      fixed := ongoing.formed.fixed
      sound := by
        refine ⟨ongoing.formed.sound.refs, fun r root => ?_⟩
        simp only [GlobalState.roots, List.map_append, List.map_cons, List.map_nil,
          List.mem_cons, List.mem_append, List.not_mem_nil, or_false] at root
        have old (root : r ∈ g.roots) : g.Has r := ongoing.formed.sound.roots r root
        simp only [GlobalState.roots, List.mem_cons, List.mem_append] at old
        rcases root with root | root | root | root | root | rfl
        · exact old (.inl root)
        · exact old (.inr (.inl root))
        · exact old (.inr (.inr (.inl root)))
        · exact old (.inr (.inr (.inr (.inl root))))
        · exact old (.inr (.inr (.inr (.inr root))))
        · refine ⟨?_, ongoing.marking.alive o _ object⟩
          show (g.object o).map GCObject.tt = _
          rw [object]
          rfl }
  marking :=
    { alive := ongoing.marking.alive
      listed := ongoing.marking.listed
      covers := ongoing.marking.covers
      main := ongoing.marking.main
      registry := ongoing.marking.registry }
  within := ⟨⟨ongoing.within.region.object, ongoing.within.region.traced⟩, ongoing.within.inside⟩

/-- The loop of `luaC_separateudata` when not all userdata are separated. -/
theorem Ongoing.separate {l : List Addr} (ongoing : Ongoing R W g) (nodup : l.Nodup)
    (rest : ∀ o ∈ l, o ∈ GlobalState.after g.mainthread g.rootgc) :
    Ongoing R W (GlobalState.separate false g l) ∧ Separated g (GlobalState.separate false g l) := by
  induction l generalizing g with
  | nil => exact ⟨ongoing, Separated.refl⟩
  | cons curr l induction =>
      obtain ⟨outside, nodup⟩ := List.nodup_cons.mp nodup
      have member := rest curr List.mem_cons_self
      have rest' (o : Addr) (member : o ∈ l) := rest o (List.mem_cons_of_mem curr member)
      obtain ⟨-, u, object⟩ := (ongoing.formed.rooted.after curr).mp member
      obtain ⟨marked, white⟩ := ongoing.markfinalized object
      have separated : Separated g (g.markfinalized curr) := ⟨rfl, white, fun _ => id, fun _ => .inl⟩
      rw [GlobalState.separate]
      split_ifs with skip unneeded
      · exact induction ongoing nodup rest'
      · obtain ⟨done, later⟩ := induction marked nodup rest'
        exact ⟨done, separated.trans later⟩
      · have needed : g.gfasttm u.metatable g.tmGc ≠ .nil := by
          rwa [GlobalState.udatamt, object] at unneeded
        have moved := marked.move object member
        have separated : Separated g { g.markfinalized curr with
            rootgc := (g.markfinalized curr).rootgc.erase curr
            tmudata := (g.markfinalized curr).tmudata ++ [curr] } := by
          refine ⟨rfl, white, fun o => List.mem_append_left _, fun o member => ?_⟩
          rcases List.mem_append.mp member with member | member
          · exact .inl member
          · rw [List.mem_singleton.mp member]
            exact .inr ⟨u, object, needed⟩
        obtain ⟨done, later⟩ := induction moved nodup fun o member => by
          refine (GlobalState.mem_after_erase (List.nodup_append.mp ongoing.formed.rooted.nodup).1
            ongoing.formed.rooted.main (ongoing.formed.rooted.not_main ?_) o).mpr
              ⟨rest' o member, fun same => outside (same ▸ member)⟩
          assumption
        exact ⟨done, separated.trans later⟩

/-- `luaC_separateudata`, as the atomic step calls it. -/
theorem Ongoing.luaCSeparateudata (ongoing : Ongoing R W g) :
    Ongoing R W (g.luaCSeparateudata false) ∧ Separated g (g.luaCSeparateudata false) := by
  refine ongoing.separate ?_ fun _ => id
  obtain ⟨pre, split, -⟩ := GlobalState.exists_after ongoing.formed.rooted.main
  have nodup := (List.nodup_append.mp ongoing.formed.rooted.nodup).1
  rw [split] at nodup
  exact (List.nodup_cons.mp (List.nodup_append.mp nodup).2.1).2

end Separate

/-! ## Preservation -/

section Preserve

variable {R W W' : Addr → Prop} {g g' : GlobalState} {o : Addr} {u : Udata}

theorem GlobalState.iswhite_makewhite (white : g.currentwhite.White) (p : Addr) :
    (g.makewhite o).iswhite p = (decide (p = o) || g.iswhite p) := by
  rw [GlobalState.makewhite, GlobalState.iswhite_setMarked]
  split_ifs with same
  · simp [white.iswhite_makewhite, same]
  · simp [same]

/-- A userdata that has been whitened is marked at once: what it holds is found. -/
theorem Ongoing.preserve (ongoing : Ongoing R W g) (object : g.object o = some (.userdata u))
    (inside : R o) (waits : ∀ p, W p → W' p ∨ p = o)
    (finds : Finds R [(.userdata, o)] (g.makewhite o) g') : Ongoing R W' g' ∧ Later g g' := by
  have current := ongoing.formed.coloured.white
  have found : g'.iswhite o = false := finds.found _ List.mem_cons_self
  have white (p : Addr) (ne : p ≠ o) : (g.makewhite o).iswhite p = g.iswhite p := by
    simp [GlobalState.iswhite_makewhite current, ne]
  have keeps (p : Addr) (found_p : g.iswhite p = false) : g'.iswhite p = false := by
    rcases eq_or_ne p o with rfl | ne
    · exact found
    · exact finds.not_white ((white p ne).trans found_p)
  have coloured : (GCObject.userdata u).Coloured (Marked.makewhite g.currentwhite (g.marked o)) :=
    ⟨current.proper_makewhite, fun _ => rfl, fun gray => by
      simp [Marked.isgray, current.iswhite_makewhite] at gray⟩
  have formed₁ : (g.makewhite o).Formed := ongoing.formed.setMarked object coloured
    (ongoing.formed.sound.refs o _ object (ongoing.marking.alive o _ object))
    current.isdead_makewhite current.isfixed_makewhite
  have alive₁ : (g.makewhite o).Alive := by
    intro p y object_p
    rcases eq_or_ne p o with rfl | ne
    · rw [GlobalState.isdead, GlobalState.makewhite, GlobalState.marked_setMarked_self]
      exact current.isdead_makewhite
    · rw [GlobalState.isdead, GlobalState.makewhite, GlobalState.marked_setMarked_of_ne ne]
      exact ongoing.marking.alive p y object_p
  have within₁ : (g.makewhite o).Within R := by
    refine ⟨⟨ongoing.within.region.object, ongoing.within.region.traced⟩,
      fun p y object_p found_p => ?_⟩
    rcases eq_or_ne p o with rfl | ne
    · exact inside
    · exact ongoing.within.inside p y object_p ((white p ne).symm.trans found_p)
  have strong (p : Addr) (found_p : g.iswhite p = false) : g'.strong p = g.strong p := by
    have held : g'.held p = g.held p := congrFun finds.held p
    rcases eq_or_ne p o with rfl | ne
    · rw [GlobalState.strong, GlobalState.strong, finds.object]
      simp only [show (g.makewhite p).object p = some (.userdata u) from object, object]
      exact held
    · rw [finds.strong ((white p ne).trans found_p)]
      simp only [GlobalState.strong, GlobalState.makewhite, GlobalState.marked_setMarked_of_ne ne]
      rfl
  refine ⟨⟨finds.formed formed₁ alive₁, ⟨finds.alive alive₁, ?_, ?_, ?_, ?_⟩,
    finds.within within₁⟩, ?_⟩
  · refine finds.listed ?_ fun p y object_p => (formed₁.coloured.each p y object_p).proper
    have ne {p : Addr} {y : GCObject} (object_p : g.object p = some y) (listed : y.listed) :
        p ≠ o := by
      rintro rfl
      cases object.symm.trans object_p
      cases listed
    refine ⟨ongoing.marking.listed.nodup, fun p member => ?_, fun p y object_p listed gray => ?_⟩
    · obtain ⟨y, object_p, listed, gray⟩ := ongoing.marking.listed.mem p member
      refine ⟨y, object_p, listed, ?_⟩
      rw [GlobalState.makewhite, GlobalState.marked_setMarked_of_ne (ne object_p listed)]
      exact gray
    · rw [GlobalState.makewhite, GlobalState.marked_setMarked_of_ne (ne object_p listed)] at gray
      exact ongoing.marking.listed.listed p y object_p listed gray
  · have done (p : Addr) (y : GCObject) (shaded : Shaded R (g.makewhite o) g' p y) :
        p ∈ g'.gray ∨ Tricolour.Settled g'.edge (fun p => g'.iswhite p) p := by
      have done := shaded.done
      split_ifs at done with listed
      · exact .inl done
      · right
        rintro q ⟨tag, leads⟩
        have held : g'.strong p = (g.makewhite o).held p := by
          rw [GlobalState.strong, finds.object, shaded.object, finds.held]
          cases y with
          | table h => exact absurd rfl listed
          | string s => rfl
          | function cl => rfl
          | userdata u => rfl
          | thread th => rfl
          | proto f => rfl
          | upval uv => rfl
        rw [held] at leads
        exact (Bool.not_eq_true _).mpr (done (tag, q) leads)
    have shaded_o : ∃ y, Shaded R (g.makewhite o) g' o y := by
      refine (finds.each o).resolve_left fun same => ?_
      rw [GlobalState.iswhite, same, GlobalState.makewhite, GlobalState.marked_setMarked_self,
        current.iswhite_makewhite] at found
      cases found
    have settled : Tricolour.Settled g'.edge (fun p => g'.iswhite p) o := by
      obtain ⟨y, shaded⟩ := shaded_o
      have same : y = .userdata u := Option.some.inj (shaded.object.symm.trans object)
      subst same
      rintro q ⟨tag, leads⟩
      rw [GlobalState.strong, finds.object, shaded.object] at leads
      dsimp only at leads
      rw [finds.held] at leads
      exact (Bool.not_eq_true _).mpr (shaded.done (tag, q) leads)
    refine Tricolour.Covered.step ongoing.marking.covers (fun p white_p => ?_)
      (fun p white_p found_p => ?_) (fun p found_p waiting => ?_) fun p found_p => .inr fun q => ?_
    · exact eq_true_of_ne_false fun found_p => by rw [keeps p found_p] at white_p; cases white_p
    · rcases finds.each p with same | ⟨y, shaded⟩
      · rcases eq_or_ne p o with rfl | ne
        · exact .inr settled
        · have again := white p ne
          rw [GlobalState.iswhite] at again
          rw [GlobalState.iswhite, same, again] at found_p
          exact absurd white_p found_p
      · exact (done p y shaded).imp_left .inl
    · rcases waiting with gray | waiting
      · exact .inl (.inl (finds.mem_gray gray))
      · rcases waits p waiting with waits | rfl
        · exact .inl (.inr waits)
        · exact .inr settled
    · rintro ⟨tag, leads⟩
      rw [strong p (Bool.eq_false_of_not_eq_true found_p)] at leads
      exact ⟨tag, leads⟩
  · rw [show g'.mainthread = g.mainthread by rw [finds.frame]; rfl]
    exact keeps _ ongoing.marking.main
  · rw [show g'.registry = g.registry by rw [finds.frame]; rfl]
    exact fun r member => keeps _ (ongoing.marking.registry r member)
  · refine ⟨⟨?_, keeps, ?_⟩, fun p v object_p => ?_, ?_⟩
    · rw [finds.frame]
      rfl
    · rw [finds.tt]
      rfl
    · rw [finds.object] at object_p
      exact object_p
    · rw [finds.frame]
      rfl

/-- `marktmu` -/
theorem Ongoing.marktmu (ongoing : Ongoing R W g) (waits : ∀ o, W o → o ∈ g.tmudata)
    (inside : ∀ o ∈ g.tmudata, R o) :
    Ongoing R (fun _ => False) g.marktmu ∧ Later g g.marktmu ∧
      ∀ o ∈ g.tmudata, g.marktmu.iswhite o = false := by
  have userdata := ongoing.formed.rooted.tmudata
  rw [GlobalState.marktmu]
  generalize g.tmudata = l at waits inside userdata ⊢
  induction l generalizing g W with
  | nil =>
      refine ⟨ongoing.fewer fun o _ waiting => ?_, Longer.refl.toLater, fun o member => ?_⟩
      · exact absurd (waits o waiting) List.not_mem_nil
      · exact absurd member List.not_mem_nil
  | cons o l induction =>
      obtain ⟨u, object⟩ := userdata o List.mem_cons_self
      have inside_o := inside o List.mem_cons_self
      have current := ongoing.formed.coloured.white
      have finds : Finds R [(.userdata, o)] (g.makewhite o)
          (GlobalState.reallymarkobject GlobalState.markdepth (g.makewhite o) o) := by
        have region : Region R (g.makewhite o) := region_setMarked ongoing.within.region
        have marked : Finds R [(.userdata, o)] _ _ := markobject_finds region inside_o
        rw [GlobalState.markobject, if_pos] at marked
        · exact marked
        · simp [GlobalState.iswhite_makewhite current]
      obtain ⟨done, later⟩ : Ongoing R (· ∈ l) _ ∧ Later g _ := ongoing.preserve object inside_o
        (fun p waiting => (List.mem_cons.mp (waits p waiting)).symm) finds
      obtain ⟨done', later', found⟩ := induction done (fun _ => id)
        (fun p member => inside p (List.mem_cons_of_mem o member)) fun p member => by
          rw [finds.object]
          exact userdata p (List.mem_cons_of_mem o member)
      refine ⟨done', later.trans later', fun p member => ?_⟩
      rcases List.mem_cons.mp member with rfl | member
      · exact later'.found p (finds.found _ List.mem_cons_self)
      · exact found p member

end Preserve

end LuaScript.GC
