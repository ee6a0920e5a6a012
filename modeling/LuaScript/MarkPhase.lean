import LuaScript.GCInvariant

/-!
# Markings in progress

Marking and traversals keep the invariant of a marking in progress.
-/

namespace LuaScript.GC

open Function

/-! ## Colours -/

theorem coloured_shade {x : GCObject} {m : Marked} (proper : m.Proper)
    (white : m.iswhite) : x.Coloured (x.shade m) := by
  have black : m.isblack = false :=
    Bool.eq_false_of_not_eq_true fun black => by rw [proper.1 black] at white; cases white
  refine ⟨proper_shade x proper, fun is_black => ?_, fun is_gray => ?_⟩
  · cases x with
    | upval uv => cases uv <;> simp_all [GCObject.shade, GCObject.mayBlack]
    | string s => simp_all [GCObject.shade]
    | table h => rfl
    | function cl => rfl
    | userdata u => rfl
    | thread th => simp_all [GCObject.shade]
    | proto f => rfl
  · cases x with
    | upval uv =>
        cases uv with
        | stack L level => rfl
        | own value => simp [GCObject.shade, Marked.isgray] at is_gray
    | userdata u => simp [GCObject.shade, Marked.isgray] at is_gray
    | string s => rfl
    | table h => rfl
    | function cl => rfl
    | thread th => rfl
    | proto f => rfl

section Marks

variable {R : Addr → Prop} {g g' : GlobalState} {o : Addr} {x : GCObject} {W : Addr → Prop}

theorem GlobalState.isdead_eq_false (found : g.iswhite o = false) : g.isdead o = false :=
  Marked.isdead_eq_false found

theorem Marks.not_dead (marks : Marks R g g') (alive : g.isdead o = false) :
    g'.isdead o = false := by
  have current : g'.currentwhite = g.currentwhite := by rw [marks.frame]
  rcases marks.each o with same | ⟨x, shaded⟩
  · rw [GlobalState.isdead, same, current]
    exact alive
  · exact GlobalState.isdead_eq_false shaded.not_white

theorem Marks.coloured (marks : Marks R g g')
    (coloured : Coloured g.object g.marked g.currentwhite) :
    Coloured g'.object g'.marked g'.currentwhite where
  white := by
    rw [marks.frame]
    exact coloured.white
  each o x object := by
    rw [marks.object] at object
    rcases marks.each o with same | ⟨y, shaded⟩
    · rw [same]
      exact coloured.each o x object
    · have same : x = y := Option.some.inj (object.symm.trans shaded.object)
      rw [shaded.marked, same]
      exact coloured_shade (coloured.each o x object).proper shaded.white
  free o free := by
    rw [marks.object] at free
    rcases marks.each o with same | ⟨y, shaded⟩
    · rw [same]
      exact coloured.free o free
    · cases free.symm.trans shaded.object

theorem Marks.refs (marks : Marks R g g') : g'.refs = g.refs := by
  rw [marks.frame]
  rfl

theorem Marks.roots (marks : Marks R g g') : g'.roots = g.roots := by
  rw [marks.frame]
  rfl

theorem Marks.isfixed (marks : Marks R g g') : (g'.marked o).isfixed = (g.marked o).isfixed := by
  rcases marks.each o with same | ⟨x, shaded⟩
  · rw [same]
  · rw [shaded.marked]
    unfold GCObject.shade
    split <;> simp

theorem Marks.alive (marks : Marks R g g') (alive : g.Alive) : g'.Alive := by
  intro o x object
  rw [marks.object] at object
  exact marks.not_dead (alive o x object)

theorem Marks.formed (marks : Marks R g g') (formed : g.Formed) (alive : g.Alive) : g'.Formed where
  coloured := marks.coloured formed.coloured
  rooted := by
    rw [marks.frame]
    exact formed.rooted
  interned := by
    rw [marks.frame]
    exact formed.interned
  opened := by
    rw [marks.frame]
    exact formed.opened
  names ts member := by
    rw [marks.isfixed, marks.object]
    rw [marks.frame] at member
    exact formed.names ts member
  fixed p y object is_fixed := by
    rw [marks.isfixed] at is_fixed
    rw [marks.object] at object
    rw [show g'.mainthread = g.mainthread by rw [marks.frame]]
    exact formed.fixed p y object is_fixed
  sound := by
    have has (r : Ref) (has : g.Has r) : g'.Has r :=
      ⟨congrFun marks.tt r.2 ▸ has.1, marks.not_dead has.2⟩
    refine ⟨fun o x object _ r member => ?_, fun r member => ?_⟩
    · rw [marks.object] at object
      rw [marks.refs] at member
      exact has r (formed.sound.refs o x object (alive o x object) r member)
    · rw [marks.roots] at member
      exact has r (formed.sound.roots r member)

theorem Marks.strong (marks : Marks R g g') (found : g.iswhite o = false) :
    g'.strong o = g.strong o := by
  rw [GlobalState.strong, GlobalState.strong, marks.object, marks.weak, marks.same found,
    marks.held]

/-- Marking keeps a marking. -/
theorem Marks.covers (marks : Marks R g g') (covers : g.Covers W) : g'.Covers W := by
  refine Tricolour.Covered.step covers (fun o white => (marks.fade white).1) ?_ ?_ ?_
  · intro o white found
    rcases marks.each o with same | ⟨x, shaded⟩
    · rw [GlobalState.iswhite, same] at found
      exact absurd white found
    · have done := shaded.done
      split_ifs at done with listed
      · exact .inl (.inl done)
      · right
        rintro p ⟨tag, member⟩
        have held : g'.strong o = g.held o := by
          rw [GlobalState.strong, marks.object, shaded.object, marks.held]
          cases x with
          | table h => exact absurd rfl listed
          | string s => rfl
          | function cl => rfl
          | userdata u => rfl
          | thread th => rfl
          | proto f => rfl
          | upval uv => rfl
        rw [held] at member
        exact (Bool.not_eq_true _).mpr (done (tag, p) member)
  · intro o found waits
    exact .inl (waits.imp_left marks.mem_gray)
  · intro o found
    right
    rintro p ⟨tag, member⟩
    rw [marks.strong (Bool.eq_false_of_not_eq_true found)] at member
    exact ⟨tag, member⟩

theorem Marks.listed (marks : Marks R g g')
    (listed : Listed g.object g.marked g.gray g.grayagain g.weak)
    (proper : ∀ o x, g.object o = some x → (g.marked o).Proper) :
    Listed g'.object g'.marked g'.gray g'.grayagain g'.weak := by
  obtain ⟨new, same, nodup, is_listed⟩ := marks.gray
  have old (o : Addr) (member : o ∈ g.gray ++ (g.grayagain ++ g.weak)) :
      g.iswhite o = false ∧ ∃ x, g.object o = some x ∧ x.listed ∧ g.isgray o := by
    obtain ⟨x, object, listed, gray⟩ := listed.mem o member
    refine ⟨?_, x, object, listed, gray⟩
    simp only [Marked.isgray, Bool.and_eq_true, Bool.not_eq_true'] at gray
    exact gray.2
  rw [marks.grayagain, marks.weak, same]
  refine ⟨?_, fun o member => ?_, fun o x object listed' gray => ?_⟩
  · rw [List.append_assoc]
    refine List.nodup_append'.mpr ⟨nodup, listed.nodup, fun o member member' => ?_⟩
    obtain ⟨x, shaded, -⟩ := is_listed o member
    have white := shaded.white
    rw [(old o member').1] at white
    cases white
  · rw [List.append_assoc] at member
    rw [marks.object]
    rcases List.mem_append.mp member with member | member
    · obtain ⟨x, shaded, listed'⟩ := is_listed o member
      refine ⟨x, shaded.object, listed', ?_⟩
      have proper := proper o x shaded.object
      have white : (g.marked o).iswhite := shaded.white
      have black : (g.marked o).isblack = false :=
        Bool.eq_false_of_not_eq_true fun black => by rw [proper.1 black] at white; cases white
      rw [shaded.marked]
      cases x with
      | string s => cases listed'
      | userdata u => cases listed'
      | upval uv => cases listed'
      | table h => simp [GCObject.shade, Marked.isgray, black]
      | function cl => simp [GCObject.shade, Marked.isgray, black]
      | thread th => simp [GCObject.shade, Marked.isgray, black]
      | proto f => simp [GCObject.shade, Marked.isgray, black]
    · obtain ⟨found, x, object, listed', gray⟩ := old o member
      refine ⟨x, object, listed', ?_⟩
      rw [marks.same found]
      exact gray
  · rw [List.append_assoc]
    rw [marks.object] at object
    rcases marks.each o with same' | ⟨y, shaded⟩
    · rw [same'] at gray
      exact List.mem_append_right _ (listed.listed o x object listed' gray)
    · have done := shaded.done
      rw [← Option.some.inj (object.symm.trans shaded.object), if_pos listed', same] at done
      rcases List.mem_append.mp done with done | done
      · exact List.mem_append_left _ done
      · exact List.mem_append_right _ (List.mem_append_left _ done)

/-- Marking keeps a marking. -/
theorem Marks.marking (marks : Marks R g g') (formed : g.Formed) (marking : g.Marking W) :
    g'.Marking W where
  alive := marks.alive marking.alive
  listed := marks.listed marking.listed fun o x object => (formed.coloured.each o x object).proper
  covers := marks.covers marking.covers
  main := by
    rw [show g'.mainthread = g.mainthread by rw [marks.frame]]
    exact marks.not_white marking.main
  registry r member := by
    rw [show g'.registry = g.registry by rw [marks.frame]] at member
    exact marks.not_white (marking.registry r member)

end Marks

/-! ## Traversals -/

theorem Thread.slot_clear {th : Thread} {level : Nat} (below : level < th.top) :
    th.clear.slot level = th.slot level := by
  rw [slot, slot, clear]
  simp only [List.getD_eq_getElem?_getD, List.getElem?_mapIdx]
  cases th.stack[level]? with
  | none => rfl
  | some v => simp [Nat.not_le_of_lt below]

theorem Node.refs_tidy (n : Node) : n.tidy.refs = n.refs := by
  by_cases value : n.val = .nil
  · rw [refs, refs, val_tidy, if_pos value, if_pos value]
  · rw [tidy_of_val value]

theorem Tidies.alike {x x' : GCObject} {o : Addr} {object : Addr → Option GCObject}
    {uvhead : List Addr} (opened : Opened object uvhead) (was : object o = some x)
    (listed : x.listed) (tidies : Tidies x x') : Alike x x' := by
  cases tidies with
  | same =>
      cases x with
      | table h => exact .table h h
      | function cl => exact .function cl cl
      | proto f => exact .proto f f
      | thread th => exact .thread (opened.top o th was) rfl
      | string s => cases listed
      | userdata u => cases listed
      | upval uv => cases listed
  | table h => exact .table h _
  | thread th =>
      refine .thread ?_ rfl
      have le := opened.top o th was
      simpa [Thread.clear] using le

/-- A tidied thread keeps its top. -/
theorem Tidies.below {x : GCObject} {o uv : Addr} {th : Thread} {level : Nat}
    {object : Addr → Option GCObject} {uvhead : List Addr} (opened : Opened object uvhead)
    (was : object o = some x) (tidies : Tidies x (.thread th)) (member : uv ∈ th.openupval)
    (is_open : object uv = some (.upval (.stack o level))) : level < th.top := by
  have below (th : Thread) (was : object o = some (.thread th)) (member : uv ∈ th.openupval) :
      level < th.top := by
    obtain ⟨level', is_open', below⟩ := opened.level o th uv was member
    rw [is_open] at is_open'
    cases is_open'
    exact below
  cases tidies with
  | same => exact below th was member
  | thread th => exact below th was member

section Tidies

variable {g g' : GlobalState} {o : Addr} {x x' : GCObject}

/-- An open upvalue points below the top of a stack. -/
theorem slot_of_tidies (opened : Opened g.object g.uvhead) (was : g.object o = some x)
    (tidies : Tidies x x') (object : g'.object = update g.object o (some x')) {uv L : Addr}
    {level : Nat} (is_open : g.object uv = some (.upval (.stack L level))) :
    g'.slot L level = g.slot L level := by
  rw [GlobalState.slot, GlobalState.slot, object]
  rcases eq_or_ne L o with rfl | ne
  · rw [update_self, was]
    cases tidies with
    | same => rfl
    | table h => rfl
    | thread th =>
        obtain ⟨th', is_thread, member⟩ := opened.mem uv L level is_open
        obtain ⟨level', is_open', below⟩ := opened.level L th' uv is_thread member
        rw [is_open] at is_open'
        cases is_open'
        rw [was] at is_thread
        cases is_thread
        exact Thread.slot_clear below
  · rw [update_of_ne ne]

theorem refsWith_of_tidies (opened : Opened g.object g.uvhead) (was : g.object o = some x)
    (tidies : Tidies x x') (object : g'.object = update g.object o (some x')) {p : Addr}
    {y : GCObject} (object_p : g.object p = some y) (node : Node → List Ref) :
    y.refsWith node g'.slot = y.refsWith node g.slot := by
  cases y with
  | upval uv =>
      cases uv with
      | own v => rfl
      | stack L level =>
          rw [GCObject.refsWith, GCObject.refsWith,
            slot_of_tidies opened was tidies object object_p]
  | string s => rfl
  | table h => rfl
  | function cl => rfl
  | userdata u => rfl
  | thread th => rfl
  | proto f => rfl

/-- What a program can read stays the same or becomes less. -/
theorem refs_of_tidies (opened : Opened g.object g.uvhead) (was : g.object o = some x)
    (tidies : Tidies x x') (object : g'.object = update g.object o (some x')) {p : Addr} {r : Ref}
    (member : r ∈ g'.refs p) : r ∈ g.refs p := by
  rw [GlobalState.refs, object] at member
  rw [GlobalState.refs]
  rcases eq_or_ne p o with rfl | ne
  · rw [update_self] at member
    rw [was]
    dsimp only at member ⊢
    have same := refsWith_of_tidies opened was tidies object was Node.refs
    cases tidies with
    | same => rwa [same] at member
    | table h =>
        simpa [GCObject.refsWith, Table.refsWith, List.flatMap_map, Node.refs_tidy] using member
    | thread th =>
        rcases List.mem_append.mp (Thread.refs_clear member) with member | member
        · exact List.mem_append_left _ member
        · refine List.mem_append_right _ ?_
          obtain ⟨v, value, member⟩ := List.mem_flatMap.mp member
          refine List.mem_flatMap.mpr ⟨v, ?_, member⟩
          exact (List.take_sublist_take_left (le_max_left _ _)).subset value
  · rw [update_of_ne ne] at member
    cases object_p : g.object p with
    | none =>
        rw [object_p] at member
        exact absurd member List.not_mem_nil
    | some y =>
        rw [object_p] at member
        dsimp only at member ⊢
        rwa [refsWith_of_tidies opened was tidies object object_p] at member

theorem gfasttm_of_tidies (was : g.object o = some x) (tidies : Tidies x x')
    (object : g'.object = update g.object o (some x')) (et : Option Addr) (ename : Addr) :
    g'.gfasttm et ename = g.gfasttm et ename := by
  cases et with
  | none => rfl
  | some et =>
      rw [GlobalState.gfasttm, GlobalState.gfasttm, object]
      rcases eq_or_ne et o with rfl | ne
      · rw [update_self, was]
        cases tidies with
        | same => rfl
        | table h => exact Table.getstr_tidy
        | thread th => rfl
      · rw [update_of_ne ne]

theorem weakness_of_tidies (was : g.object o = some x) (tidies : Tidies x x')
    (object : g'.object = update g.object o (some x')) (tmMode : g'.tmMode = g.tmMode) (h : Table) :
    g'.weakness h = g.weakness h := by
  rw [GlobalState.weakness, GlobalState.weakness, gfasttm_of_tidies was tidies object, tmMode]
  cases g.gfasttm h.metatable g.tmMode with
  | string s =>
      dsimp only
      rw [object]
      rcases eq_or_ne s o with rfl | ne
      · rw [update_self, was]
        cases tidies <;> rfl
      · rw [update_of_ne ne]
  | nil => rfl
  | boolean b => rfl
  | lightuserdata p => rfl
  | number n => rfl
  | table o => rfl
  | function o => rfl
  | userdata o => rfl
  | thread o => rfl
  | proto o => rfl

/-- What a traversal marks stays the same. -/
theorem traced_of_tidies (opened : Opened g.object g.uvhead) (was : g.object o = some x)
    (tidies : Tidies x x') (object : g'.object = update g.object o (some x'))
    (tmMode : g'.tmMode = g.tmMode) (p : Addr) : g'.traced p = g.traced p := by
  have weakness (h : Table) := weakness_of_tidies was tidies object tmMode h
  rw [GlobalState.traced, GlobalState.traced, object]
  rcases eq_or_ne p o with rfl | ne
  · rw [update_self, was]
    have same := refsWith_of_tidies opened was tidies object was Node.refs
    cases tidies with
    | same =>
        cases x with
        | table h =>
            dsimp only
            rw [weakness]
        | string s => exact same
        | function cl => exact same
        | userdata u => exact same
        | thread th => rfl
        | proto f => exact same
        | upval uv => exact same
    | table h =>
        dsimp only
        have weakness' : g'.weakness { h with node := h.node.map Node.tidy } = g.weakness h :=
          weakness h
        rw [weakness', Table.traversed_tidy]
    | thread th =>
        have take : th.clear.stack.take th.top = th.stack.take th.top := by
          refine List.ext_getElem? fun i => ?_
          rw [List.getElem?_take, List.getElem?_take]
          split_ifs with below
          · rw [Thread.clear, List.getElem?_mapIdx]
            cases th.stack[i]? with
            | none => rfl
            | some v => simp [Nat.not_le_of_lt below]
          · rfl
        exact congrArg (fun stack => th.gt.refs ++ stack.flatMap TValue.refs) take
  · rw [update_of_ne ne]
    cases object_p : g.object p with
    | none => rfl
    | some y =>
        have same := refsWith_of_tidies opened was tidies object object_p Node.refs
        cases y with
        | table h =>
            dsimp only
            rw [weakness]
        | string s => exact same
        | function cl => exact same
        | userdata u => exact same
        | thread th => rfl
        | proto f => exact same
        | upval uv => exact same

end Tidies

section Propagated

variable {R W : Addr → Prop} {g u g' : GlobalState} {o : Addr} {rest : List Addr} {x x' : GCObject}

theorem Propagated.object_eq (propagated : Propagated R g u g' o rest x x') :
    g'.object = update g.object o (some x') := by
  rw [propagated.result, ← show ({ g.gray2black o with gray := rest } : GlobalState).object =
    g.object from rfl, ← propagated.marks.object]

theorem Propagated.marked_of_ne (propagated : Propagated R g u g' o rest x x') {p : Addr}
    (ne : p ≠ o) : g'.marked p = u.marked p := by
  rw [propagated.result]
  exact update_of_ne ne _ _

/-- The other objects are marked as by `Marks`. -/
theorem Propagated.each (propagated : Propagated R g u g' o rest x x') {p : Addr} (ne : p ≠ o) :
    g'.marked p = g.marked p ∨
      ∃ y, Shaded R { g.gray2black o with gray := rest } u p y := by
  rw [propagated.marked_of_ne ne]
  rcases propagated.marks.each p with same | shaded
  · exact .inl (same.trans (GlobalState.marked_setMarked_of_ne ne))
  · exact .inr shaded

theorem Propagated.tt (propagated : Propagated R g u g' o rest x x') : g'.tt = g.tt := by
  funext p
  rw [GlobalState.tt, GlobalState.tt, propagated.object_eq]
  rcases eq_or_ne p o with rfl | ne
  · rw [update_self, propagated.object]
    cases propagated.tidies <;> rfl
  · rw [update_of_ne ne]

theorem Propagated.not_white (propagated : Propagated R g u g' o rest x x') {p : Addr}
    (found : g.iswhite p = false) : g'.iswhite p = false := by
  rcases eq_or_ne p o with rfl | ne
  · exact propagated.white
  · rcases propagated.each ne with same | ⟨y, shaded⟩
    · rw [GlobalState.iswhite, same]
      exact found
    · rw [GlobalState.iswhite, propagated.marked_of_ne ne]
      exact shaded.not_white

theorem Propagated.not_white' (propagated : Propagated R g u g' o rest x x') {p : Addr}
    (found : u.iswhite p = false) : g'.iswhite p = false := by
  rcases eq_or_ne p o with rfl | ne
  · exact propagated.white
  · rw [GlobalState.iswhite, propagated.marked_of_ne ne]
    exact found

theorem Propagated.same (propagated : Propagated R g u g' o rest x x') {p : Addr} (ne : p ≠ o)
    (found : g.iswhite p = false) : g'.marked p = g.marked p := by
  rcases propagated.each ne with same | ⟨y, shaded⟩
  · exact same
  · have white := shaded.white
    rw [show ({ g.gray2black o with gray := rest } : GlobalState).iswhite p =
      (g.gray2black o).iswhite p from rfl, GlobalState.gray2black, GlobalState.iswhite_setMarked,
      if_neg ne, found] at white
    cases white

theorem Propagated.not_dead (propagated : Propagated R g u g' o rest x x') {p : Addr}
    (alive : g.isdead p = false) : g'.isdead p = false := by
  have current : g'.currentwhite = g.currentwhite := by
    rw [propagated.result, propagated.marks.frame]
    rfl
  rcases eq_or_ne p o with rfl | ne
  · exact GlobalState.isdead_eq_false propagated.white
  · rcases propagated.each ne with same | ⟨y, shaded⟩
    · rw [GlobalState.isdead, same, current]
      exact alive
    · refine GlobalState.isdead_eq_false ?_
      rw [GlobalState.iswhite, propagated.marked_of_ne ne]
      exact shaded.not_white

theorem Propagated.isfixed (propagated : Propagated R g u g' o rest x x') (p : Addr) :
    (g'.marked p).isfixed = (g.marked p).isfixed := by
  rcases eq_or_ne p o with rfl | ne
  · exact propagated.fixed
  · rw [propagated.marked_of_ne ne, propagated.marks.isfixed]
    exact congrArg Marked.isfixed (GlobalState.marked_setMarked_of_ne ne)

theorem Propagated.coloured (propagated : Propagated R g u g' o rest x x') (listed : x.listed)
    (alike : Alike x x') (coloured : Coloured g.object g.marked g.currentwhite) :
    Coloured g'.object g'.marked g'.currentwhite where
  white := by
    rw [propagated.result, propagated.marks.frame]
    exact coloured.white
  each p y object := by
    rw [propagated.object_eq] at object
    rcases eq_or_ne p o with rfl | ne
    · rw [update_self] at object
      cases object
      refine alike.coloured ⟨propagated.proper (coloured.each p x propagated.object).proper,
        fun black => ?_, fun gray => ?_⟩
      · rcases propagated.place with ⟨-, thread, -⟩ | ⟨gray, -⟩ | ⟨gray, -⟩
        · cases x with
          | thread th => exact absurd rfl thread
          | string s => cases listed
          | userdata u => cases listed
          | upval uv => cases listed
          | table h => rfl
          | function cl => rfl
          | proto f => rfl
        · rw [GlobalState.isblack, black] at gray
          cases gray
        · rw [GlobalState.isblack, black] at gray
          cases gray
      · cases x with
        | string s => cases listed
        | userdata u => cases listed
        | upval uv => cases listed
        | thread th => rfl
        | table h => rfl
        | function cl => rfl
        | proto f => rfl
    · rw [update_of_ne ne] at object
      rcases propagated.each ne with same | ⟨z, shaded⟩
      · rw [same]
        exact coloured.each p y object
      · have same : z = y := Option.some.inj (shaded.object.symm.trans object)
        have white : (g.marked p).iswhite := by
          have white := shaded.white
          rw [show ({ g.gray2black o with gray := rest } : GlobalState).iswhite p =
            (g.gray2black o).iswhite p from rfl, GlobalState.gray2black,
            GlobalState.iswhite_setMarked, if_neg ne] at white
          exact white
        rw [propagated.marked_of_ne ne, shaded.marked, same, show ({ g.gray2black o with
          gray := rest } : GlobalState).marked p = g.marked p from
            GlobalState.marked_setMarked_of_ne ne]
        exact coloured_shade (coloured.each p y object).proper white
  free p free := by
    rw [propagated.object_eq] at free
    have ne : p ≠ o := by
      rintro rfl
      rw [update_self] at free
      cases free
    rw [update_of_ne ne] at free
    rcases propagated.each ne with same | ⟨z, shaded⟩
    · rw [same]
      exact coloured.free p free
    · cases free.symm.trans shaded.object

theorem Propagated.formed (propagated : Propagated R g u g' o rest x x') (listed : x.listed)
    (formed : g.Formed) (alive : g.Alive) : g'.Formed := by
  have alike := propagated.tidies.alike formed.opened propagated.object listed
  have object := propagated.object_eq
  have frame : g' = { g with
      object := g'.object
      marked := g'.marked
      gray := g'.gray
      grayagain := g'.grayagain
      weak := g'.weak } := by
    rw [propagated.result, propagated.marks.frame]
    rfl
  have has (r : Ref) (has : g.Has r) : g'.Has r :=
    ⟨congrFun propagated.tt r.2 ▸ has.1, propagated.not_dead has.2⟩
  refine
    { coloured := propagated.coloured listed alike formed.coloured
      rooted := ?_
      interned := ?_
      opened := ?_
      names := fun ts member => ?_
      fixed := fun p y object' is_fixed => ?_
      sound := ⟨fun p y object' _ r member => ?_, fun r member => ?_⟩ }
  · rw [object, frame]
    exact formed.rooted.change alike propagated.object
  · rw [object, frame]
    exact formed.interned.change alike propagated.object
  · rw [object, frame]
    refine formed.opened.change alike propagated.object fun th same uv member level is_open => ?_
    exact Tidies.below formed.opened propagated.object (same ▸ propagated.tidies) member is_open
  · rw [frame] at member
    obtain ⟨⟨s, string⟩, fixed⟩ := formed.names ts member
    refine ⟨⟨s, ?_⟩, ?_⟩
    · rw [object]
      exact (alike.string_iff propagated.object s).mpr string
    · rw [propagated.isfixed]
      exact fixed
  · rw [propagated.isfixed] at is_fixed
    rw [show g'.mainthread = g.mainthread by rw [frame]]
    rw [object] at object'
    rcases eq_or_ne p o with rfl | ne
    · rw [update_self] at object'
      rw [← Option.some.inj object', alike.tt]
      exact formed.fixed p x propagated.object is_fixed
    · rw [update_of_ne ne] at object'
      exact formed.fixed p y object' is_fixed
  · have member' := refs_of_tidies formed.opened propagated.object propagated.tidies object member
    cases object_p : g.object p with
    | none =>
        rw [GlobalState.refs, object_p] at member'
        exact absurd member' List.not_mem_nil
    | some z => exact has r (formed.sound.refs p z object_p (alive p z object_p) r member')
  · have roots : g'.roots = g.roots := by
      rw [frame]
      rfl
    rw [roots] at member
    exact has r (formed.sound.roots r member)

theorem Propagated.strong (propagated : Propagated R g u g' o rest x x') (formed : g.Formed)
    {p : Addr} (ne : p ≠ o) (found : g.iswhite p = false) : g'.strong p = g.strong p := by
  have object := propagated.object_eq
  have object_p : g'.object p = g.object p := by
    rw [object, update_of_ne ne]
  have held : g'.held p = g.held p := by
    rw [GlobalState.held, GlobalState.held, object_p]
    cases object_p : g.object p with
    | none => rfl
    | some y =>
        exact refsWith_of_tidies formed.opened propagated.object propagated.tidies object object_p _
  have weak : p ∈ g'.weak ↔ p ∈ g.weak := by
    rcases propagated.place with ⟨-, -, -, weak⟩ | ⟨-, -, weak⟩ | ⟨-, -, weak⟩
    · rw [weak]
    · rw [weak]
    · rw [weak, List.mem_cons, or_iff_right ne]
  simp only [GlobalState.strong, object_p, weak, propagated.same ne found, held]

/-- A traversal keeps a marking. -/
theorem Propagated.covers (propagated : Propagated R g u g' o rest x x') (gray : g.gray = o :: rest)
    (found : g.iswhite o = false) (formed : g.Formed) (covers : g.Covers W) : g'.Covers W := by
  have settled : Tricolour.Settled g'.edge (fun o => g'.iswhite o) o := by
    rintro p ⟨tag, member⟩
    exact (Bool.not_eq_true _).mpr (propagated.settled (tag, p) member)
  have gray_eq : g'.gray = u.gray := by
    rw [propagated.result]
  have not_white (p : Addr) (found : g.iswhite p = false) := propagated.not_white found
  refine Tricolour.Covered.step covers (fun p white => ?_) (fun p white found' => ?_)
    (fun p found' waits => ?_) fun p found' => ?_
  · exact eq_true_of_ne_false fun found => by rw [not_white p found] at white; cases white
  · have ne : p ≠ o := by
      rintro rfl
      rw [found] at white
      cases white
    rcases propagated.each ne with same | ⟨y, shaded⟩
    · rw [GlobalState.iswhite, same] at found'
      exact absurd white found'
    · have done := shaded.done
      split_ifs at done with listed
      · exact .inl (.inl (gray_eq ▸ done))
      · right
        rintro q ⟨tag, member⟩
        have object_p : g'.object p = some y := by
          rw [propagated.object_eq, update_of_ne ne]
          exact shaded.object
        have held : g'.strong p = g.held p := by
          have held : g'.held p = g.held p := by
            rw [GlobalState.held, GlobalState.held, object_p,
              show g.object p = some y from shaded.object]
            exact refsWith_of_tidies formed.opened propagated.object propagated.tidies
              propagated.object_eq shaded.object _
          rw [GlobalState.strong, object_p, held]
          cases y with
          | table h => exact absurd rfl listed
          | string s => rfl
          | function cl => rfl
          | userdata u => rfl
          | thread th => rfl
          | proto f => rfl
          | upval uv => rfl
        rw [held] at member
        exact (Bool.not_eq_true _).mpr (propagated.not_white' (done (tag, q) member))
  · rcases waits with member | waits
    · rw [gray, List.mem_cons] at member
      rcases member with rfl | member
      · exact .inr settled
      · exact .inl (.inl (gray_eq ▸ propagated.marks.mem_gray member))
    · exact .inl (.inr waits)
  · rcases eq_or_ne p o with rfl | ne
    · exact .inl (.inr settled)
    · right
      rintro q ⟨tag, member⟩
      rw [propagated.strong formed ne (Bool.eq_false_of_not_eq_true found')] at member
      exact ⟨tag, member⟩

/-- The gray lists while an object is traversed: it is black, and in no list. -/
theorem Listed.pop (listed : Listed g.object g.marked g.gray g.grayagain g.weak)
    (gray : g.gray = o :: rest) :
    Listed g.object (g.gray2black o).marked rest g.grayagain g.weak := by
  have nodup := listed.nodup
  rw [gray, List.cons_append, List.nodup_cons] at nodup
  have ne {p : Addr} (member : p ∈ rest ++ (g.grayagain ++ g.weak)) : p ≠ o := by
    rintro rfl
    exact nodup.1 member
  refine ⟨nodup.2, fun p member => ?_, fun p y object is_listed is_gray => ?_⟩
  · obtain ⟨y, object, is_listed, is_gray⟩ :=
      listed.mem p (gray ▸ List.mem_cons_of_mem o member)
    refine ⟨y, object, is_listed, ?_⟩
    rw [GlobalState.gray2black, GlobalState.marked_setMarked_of_ne (ne member)]
    exact is_gray
  · have ne : p ≠ o := by
      rintro rfl
      simp [GlobalState.gray2black, Marked.isgray] at is_gray
    rw [GlobalState.gray2black, GlobalState.marked_setMarked_of_ne ne] at is_gray
    have member := listed.listed p y object is_listed is_gray
    rw [gray, List.cons_append, List.mem_cons] at member
    exact member.resolve_left ne

theorem Propagated.listed (propagated : Propagated R g u g' o rest x x') (gray : g.gray = o :: rest)
    (is_listed : x.listed) (alike : Alike x x')
    (listed : Listed g.object g.marked g.gray g.grayagain g.weak)
    (proper : ∀ p y, g.object p = some y → (g.marked p).Proper) :
    Listed g'.object g'.marked g'.gray g'.grayagain g'.weak := by
  have found : g.iswhite o = false := by
    obtain ⟨y, -, -, is_gray⟩ := listed.mem o (gray ▸ List.mem_cons_self)
    simp only [Marked.isgray, Bool.and_eq_true, Bool.not_eq_true'] at is_gray
    exact is_gray.2
  have listed_u : Listed u.object u.marked u.gray g.grayagain g.weak := by
    have listed₀ := propagated.marks.listed (listed.pop gray) fun p y object => by
      show ((g.gray2black o).marked p).Proper
      rw [GlobalState.gray2black]
      rcases eq_or_ne p o with rfl | ne
      · rw [GlobalState.marked_setMarked_self]
        exact (proper p y object).gray2black found
      · rw [GlobalState.marked_setMarked_of_ne ne]
        exact proper p y object
    rw [propagated.marks.grayagain, propagated.marks.weak] at listed₀
    exact listed₀
  have black : (u.marked o).isblack := by
    rw [propagated.marks.same (by
      rw [show ({ g.gray2black o with gray := rest } : GlobalState).iswhite o =
        (g.gray2black o).iswhite o from rfl, GlobalState.gray2black, GlobalState.iswhite_setMarked,
        if_pos rfl, Marked.iswhite_gray2black]
      exact found)]
    exact GlobalState.marked_setMarked_self ▸ Marked.isblack_gray2black
  have outside : o ∉ u.gray ++ (g.grayagain ++ g.weak) := by
    intro member
    obtain ⟨y, -, -, is_gray⟩ := listed_u.mem o member
    simp [Marked.isgray, black] at is_gray
  have gray_eq : g'.gray = u.gray := by
    rw [propagated.result]
  have object : g'.object o = some x' := by
    rw [propagated.object_eq, update_self]
  have other {p : Addr} (ne : p ≠ o) : g'.object p = u.object p ∧ g'.marked p = u.marked p := by
    refine ⟨?_, propagated.marked_of_ne ne⟩
    rw [propagated.object_eq, update_of_ne ne, propagated.marks.object]
    rfl
  have old (p : Addr) (member : p ∈ u.gray ++ (g.grayagain ++ g.weak)) :
      ∃ y, g'.object p = some y ∧ y.listed ∧ (g'.marked p).isgray := by
    have ne : p ≠ o := by
      rintro rfl
      exact outside member
    rw [(other ne).1, (other ne).2]
    exact listed_u.mem p member
  -- The object itself is gray exactly when it has been put on a list again.
  have this (white : (g'.marked o).isblack = false) :
      ∃ y, g'.object o = some y ∧ y.listed ∧ (g'.marked o).isgray := by
    refine ⟨x', object, alike.listed.trans is_listed, ?_⟩
    have found' : (g'.marked o).iswhite = false := propagated.white
    simp [Marked.isgray, white, found']
  have kept (p : Addr) (y : GCObject) (ne : p ≠ o) (object' : g'.object p = some y)
      (is_listed' : y.listed) (is_gray : (g'.marked p).isgray) :
      p ∈ u.gray ++ (g.grayagain ++ g.weak) := by
    rw [(other ne).1] at object'
    rw [(other ne).2] at is_gray
    exact listed_u.listed p y object' is_listed' is_gray
  rw [gray_eq]
  rcases propagated.place with ⟨is_black, -, again, weak⟩ | ⟨white, again, weak⟩ |
    ⟨white, again, weak⟩
  · rw [again, weak]
    refine ⟨listed_u.nodup, old, fun p y object' is_listed' is_gray => ?_⟩
    refine kept p y ?_ object' is_listed' is_gray
    rintro rfl
    rw [GlobalState.isblack] at is_black
    simp [Marked.isgray, is_black] at is_gray
  · rw [again, weak]
    have perm : (u.gray ++ (o :: g.grayagain ++ g.weak)).Perm
        (o :: (u.gray ++ (g.grayagain ++ g.weak))) := List.perm_middle
    refine ⟨perm.nodup_iff.mpr (List.nodup_cons.mpr ⟨outside, listed_u.nodup⟩),
      fun p member => ?_, fun p y object' is_listed' is_gray => ?_⟩
    · rcases List.mem_cons.mp (perm.mem_iff.mp member) with rfl | member
      · exact this white
      · exact old p member
    · refine perm.mem_iff.mpr ?_
      rcases eq_or_ne p o with rfl | ne
      · exact List.mem_cons_self
      · exact List.mem_cons_of_mem o (kept p y ne object' is_listed' is_gray)
  · rw [again, weak]
    have perm : (u.gray ++ (g.grayagain ++ o :: g.weak)).Perm
        (o :: (u.gray ++ (g.grayagain ++ g.weak))) :=
      (List.perm_middle.append_left u.gray).trans List.perm_middle
    refine ⟨perm.nodup_iff.mpr (List.nodup_cons.mpr ⟨outside, listed_u.nodup⟩),
      fun p member => ?_, fun p y object' is_listed' is_gray => ?_⟩
    · rcases List.mem_cons.mp (perm.mem_iff.mp member) with rfl | member
      · exact this white
      · exact old p member
    · refine perm.mem_iff.mpr ?_
      rcases eq_or_ne p o with rfl | ne
      · exact List.mem_cons_self
      · exact List.mem_cons_of_mem o (kept p y ne object' is_listed' is_gray)

/-- A traversal keeps a marking. -/
theorem Propagated.marking (propagated : Propagated R g u g' o rest x x')
    (gray : g.gray = o :: rest) (listed : x.listed) (formed : g.Formed) (marking : g.Marking W) :
    g'.Marking W where
  alive p y object := by
    rw [propagated.object_eq] at object
    rcases eq_or_ne p o with rfl | ne
    · exact propagated.not_dead (marking.alive p x propagated.object)
    · rw [update_of_ne ne] at object
      exact propagated.not_dead (marking.alive p y object)
  listed := propagated.listed gray listed
    (propagated.tidies.alike formed.opened propagated.object listed) marking.listed
    fun p y object => (formed.coloured.each p y object).proper
  covers := by
    refine propagated.covers gray ?_ formed marking.covers
    obtain ⟨y, -, -, is_gray⟩ := marking.listed.mem o (gray ▸ List.mem_cons_self)
    simp only [Marked.isgray, Bool.and_eq_true, Bool.not_eq_true'] at is_gray
    exact is_gray.2
  main := by
    rw [show g'.mainthread = g.mainthread by
      rw [propagated.result, propagated.marks.frame]
      rfl]
    exact propagated.not_white marking.main
  registry r member := by
    rw [show g'.registry = g.registry by
      rw [propagated.result, propagated.marks.frame]
      rfl] at member
    exact propagated.not_white (marking.registry r member)

end Propagated

end LuaScript.GC
