import LuaScript.Finalizers

/-!
# Weak tables

`cleartable` removes the entries of weak tables whose objects have not been marked.  It marks the
strings that it meets, and afterwards no table refers to a white object.
-/

namespace LuaScript.GC

open Function

/-- References have been cleared: those that are left are not white.  Only strings are marked. -/
structure Clears (g g' : GlobalState) (l l' : List Ref) : Prop
    extends Marks (fun o => g.tt o = some .string) g g' where
  subset : ∀ r ∈ l', r ∈ l
  left : ∀ r ∈ l', g'.iswhite r.2 = false

section Clears

variable {g g' g'' : GlobalState} {l l' m m' : List Ref} {o : Addr}

/-- No traversal leaves the strings. -/
theorem region_strings (g : GlobalState) : Region (fun o => g.tt o = some .string) g where
  object o string := by
    obtain ⟨x, object, -⟩ := Option.map_eq_some_iff.mp string
    rw [object]
    rfl
  traced o string r member := by
    obtain ⟨x, object, tt⟩ := Option.map_eq_some_iff.mp string
    rw [GlobalState.traced, object] at member
    cases x with
    | string s => exact absurd member List.not_mem_nil
    | table h => cases tt
    | function cl => cases tt
    | userdata u => cases tt
    | thread th => cases tt
    | proto f => cases tt
    | upval uv => cases tt

theorem Clears.refl (found : ∀ r ∈ l, g.iswhite r.2 = false) : Clears g g l l :=
  ⟨Marks.refl, fun _ => id, found⟩

theorem Clears.none : Clears g g l [] :=
  ⟨Marks.refl, fun _ member => absurd member List.not_mem_nil,
    fun _ member => absurd member List.not_mem_nil⟩

theorem Clears.trans_marks (first : Clears g g' l l') (second : Clears g' g'' m m') :
    Marks (fun o => g.tt o = some .string) g g'' := by
  have later := second.toMarks
  rw [first.tt] at later
  exact first.toMarks.trans later

theorem Clears.append (first : Clears g g' l l') (second : Clears g' g'' m m') :
    Clears g g'' (l ++ m) (l' ++ m') where
  toMarks := first.trans_marks second
  subset r member := by
    rw [List.mem_append] at member ⊢
    exact member.imp (first.subset r) (second.subset r)
  left r member := by
    rcases List.mem_append.mp member with member | member
    · exact second.not_white (first.left r member)
    · exact second.left r member

theorem Clears.of_subset (clears : Clears g g' l l') (subset : ∀ r ∈ l, r ∈ m)
    (subset' : ∀ r ∈ m', r ∈ l') : Clears g g' m m' where
  toMarks := clears.toMarks
  subset r member := subset r (clears.subset r (subset' r member))
  left r member := clears.left r (subset' r member)

/-! ## Entries -/

/-- A value that `iscleared` does not clear is not white afterwards. -/
theorem iscleared_clears {v : TValue} (typed : ∀ r ∈ v.refs, g.tt r.2 = some r.1) (iskey : Bool) :
    Clears g (g.iscleared v iskey).1 v.refs (if (g.iscleared v iskey).2 then [] else v.refs) := by
  have other (tag : Tag) (a : Addr) (ref : v.ref = some (tag, a)) :
      Clears g g v.refs (if g.iswhite a then [] else v.refs) := by
    split_ifs with white
    · exact Clears.none
    · refine Clears.refl fun r member => ?_
      rw [TValue.refs, ref] at member
      rw [List.mem_singleton.mp member]
      exact Bool.eq_false_of_not_eq_true white
  cases v with
  | string s =>
      have string : g.tt s = some .string := typed (.string, s) List.mem_cons_self
      have finds : Finds _ [(.string, s)] g (g.markobject s) :=
        markobject_finds (region_strings g) string
      rw [← white2gray_eq_markobject string] at finds
      exact ⟨finds.toMarks, fun _ => id, finds.found⟩
  | userdata u =>
      rw [GlobalState.iscleared]
      dsimp only
      split_ifs with cleared
      · exact Clears.none
      · rw [Bool.or_eq_true, not_or] at cleared
        refine Clears.refl fun r member => ?_
        rw [List.mem_singleton.mp member]
        exact Bool.eq_false_of_not_eq_true cleared.1
  | table a => exact other .table a rfl
  | function a => exact other .function a rfl
  | thread a => exact other .thread a rfl
  | proto a => exact other .proto a rfl
  | nil => exact Clears.none
  | boolean b => exact Clears.none
  | lightuserdata p => exact Clears.none
  | number n => exact Clears.none

theorem clearvalue_clears {v : TValue} (typed : ∀ r ∈ v.refs, g.tt r.2 = some r.1) :
    Clears g (g.clearvalue v).1 v.refs (g.clearvalue v).2.refs := by
  have clears := iscleared_clears typed false
  rw [GlobalState.clearvalue]
  dsimp only
  split_ifs with cleared
  · rw [if_pos cleared] at clears
    exact clears
  · rw [if_neg cleared] at clears
    exact clears

@[simp] theorem Node.refs_remove (n : Node) : n.remove.refs = [] := by
  rw [refs, remove, removeentry]
  split_ifs <;> simp_all

theorem clearnode_clears {n : Node} (typed : ∀ r ∈ n.refs, g.tt r.2 = some r.1) :
    Clears g (g.clearnode n).1 n.refs (g.clearnode n).2.refs := by
  rw [GlobalState.clearnode]
  split_ifs with empty
  · rw [Node.refs, if_pos empty]
    exact Clears.none
  have refs : n.refs = n.key.refs ++ n.val.refs := if_neg empty
  rw [refs] at typed
  have key := iscleared_clears (fun r member => typed r (List.mem_append_left _ member)) true
  have value := iscleared_clears (g := (g.iscleared n.key true).1) (v := n.val)
    (fun r member => by
      rw [key.tt]
      exact typed r (List.mem_append_right _ member)) false
  have nothing {g' : GlobalState} (marks : Marks (fun o => g.tt o = some .string) g g') :
      Clears g g' n.refs n.remove.refs := by
    rw [Node.refs_remove]
    exact ⟨marks, fun _ member => absurd member List.not_mem_nil,
      fun _ member => absurd member List.not_mem_nil⟩
  dsimp only
  split_ifs with cleared cleared'
  · exact nothing key.toMarks
  · exact nothing (key.trans_marks value)
  · rw [if_neg cleared] at key
    rw [if_neg cleared'] at value
    rw [refs]
    exact key.append value

/-- The entries are cleared from the last one to the first. -/
theorem changeback_clears {α : Type} {f : GlobalState → α → GlobalState × α} (refs : α → List Ref)
    (each : ∀ g a, (∀ r ∈ refs a, g.tt r.2 = some r.1) →
      Clears g (f g a).1 (refs a) (refs (f g a).2))
    {as : List α} (typed : ∀ r ∈ as.flatMap refs, g.tt r.2 = some r.1) :
    Clears g (GlobalState.changeback f g as).1 (as.flatMap refs)
      ((GlobalState.changeback f g as).2.flatMap refs) := by
  induction as with
  | nil => exact Clears.none
  | cons a as induction =>
      rw [List.flatMap_cons] at typed ⊢
      have rest := induction fun r member => typed r (List.mem_append_right _ member)
      have first := each (GlobalState.changeback f g as).1 a fun r member => by
        rw [rest.tt]
        exact typed r (List.mem_append_left _ member)
      refine (rest.append first).of_subset (fun r member => ?_) fun r member => ?_
      · exact List.mem_append.mpr (List.mem_append.mp member).symm
      · rw [GlobalState.changeback, List.flatMap_cons] at member
        exact List.mem_append.mpr (List.mem_append.mp member).symm

end Clears

/-! ## Tables -/

/-- What is certainly not white of a table before it is cleared. -/
structure Halfway (g : GlobalState) (o : Addr) (h : Table) : Prop where
  metatable : ∀ r ∈ pointer .table h.metatable, g.iswhite r.2 = false
  array : g.marked o &&& Marked.valueweak = 0 →
    ∀ r ∈ h.array.flatMap TValue.refs, g.iswhite r.2 = false

/-- Some weak tables are still to be cleared. -/
structure Clearing (R : Addr → Prop) (l : List Addr) (g : GlobalState) : Prop where
  formed : g.Formed
  alive : g.Alive
  inside : ∀ o x, g.object o = some x → g.iswhite o = false → R o ∨ g.tt o = some .string
  closed : ∀ o x, g.object o = some x → g.iswhite o = false →
    (∀ r ∈ g.refs o, g.iswhite r.2 = false) ∨ o ∈ l ∧ ∃ h, x = .table h ∧ Halfway g o h

section Clearing

variable {R : Addr → Prop} {g g' : GlobalState} {o : Addr} {l : List Addr} {h : Table}

/-- A table has been cleared. -/
theorem Clearing.setObject {h' : Table} (clearing : Clearing R (o :: l) g)
    (object : g.object o = some (.table h))
    (marks : Marks (fun o => g.tt o = some .string) g g')
    (subset : ∀ r ∈ h'.refsWith Node.refs, r ∈ h.refsWith Node.refs)
    (left : g.iswhite o = false → ∀ r ∈ h'.refsWith Node.refs, g'.iswhite r.2 = false) :
    Clearing R l (g'.setObject o (.table h')) ∧ Found g (g'.setObject o (.table h')) := by
  have object' : g'.object o = some (.table h) := by
    rw [marks.object]
    exact object
  have formed' := marks.formed clearing.formed clearing.alive
  have slot : (g'.setObject o (.table h')).slot = g'.slot :=
    GlobalState.slot_setObject object' (.table h h') (by simp [GCObject.tt])
  have refs_o : (g'.setObject o (.table h')).refs o = h'.refsWith Node.refs := by
    rw [GlobalState.refs, GlobalState.object_setObject_self]
    rfl
  have refs {p : Addr} (ne : p ≠ o) : (g'.setObject o (.table h')).refs p = g.refs p := by
    rw [GlobalState.refs_setObject_of_ne ne fun L level _ => by rw [slot], marks.refs]
  have same_tt : (GCObject.table h').tt = (GCObject.table h).tt := rfl
  have tt : (g'.setObject o (.table h')).tt = g.tt := by
    rw [GlobalState.tt_setObject object' same_tt, marks.tt]
  have object_of_ne {p : Addr} (ne : p ≠ o) : (g'.setObject o (.table h')).object p = g.object p := by
    rw [GlobalState.object_setObject_of_ne ne, marks.object]
  refine ⟨⟨?_, ?_, ?_, ?_⟩, ⟨?_, fun p => marks.not_white, tt⟩⟩
  · refine formed'.setObject (.table h h') object' (fun th thread => by cases thread) ?_
    intro p y object_p alive r member
    rcases eq_or_ne p o with rfl | ne
    · rw [refs_o] at member
      have refs : g'.refs p = h.refsWith Node.refs := by
        rw [GlobalState.refs, object']
        rfl
      exact formed'.sound.refs p _ object' alive r (refs ▸ subset r member)
    · rw [refs ne, ← marks.refs] at member
      rw [object_of_ne ne, ← marks.object] at object_p
      exact formed'.sound.refs p y object_p alive r member
  · intro p y object_p
    rcases eq_or_ne p o with rfl | ne
    · exact marks.alive clearing.alive p _ object'
    · rw [object_of_ne ne] at object_p
      exact marks.not_dead (clearing.alive p y object_p)
  · intro p y object_p found
    rw [tt]
    rcases marks.each p with same | ⟨z, shaded⟩
    · have found' : g.iswhite p = false := by
        rw [GlobalState.iswhite, ← same]
        exact found
      rcases eq_or_ne p o with rfl | ne
      · exact clearing.inside p _ object found'
      · rw [object_of_ne ne] at object_p
        exact clearing.inside p y object_p found'
    · exact .inr shaded.inside
  · intro p y object_p found
    rcases marks.each p with same | ⟨z, shaded⟩
    · have found' : g.iswhite p = false := by
        rw [GlobalState.iswhite, ← same]
        exact found
      rcases eq_or_ne p o with rfl | ne
      · left
        rw [refs_o]
        exact left found'
      · rw [object_of_ne ne] at object_p
        rw [refs ne]
        refine (clearing.closed p y object_p found').imp (fun closed r member => ?_) ?_
        · exact marks.not_white (closed r member)
        · rintro ⟨member, h, rfl, halfway⟩
          refine ⟨(List.mem_cons.mp member).resolve_left ne, h, rfl, ?_, fun bit r member => ?_⟩
          · exact fun r member => marks.not_white (halfway.metatable r member)
          · refine marks.not_white (halfway.array ?_ r member)
            rw [← same]
            exact bit
    · left
      intro r member
      have ne : p ≠ o := by
        rintro rfl
        have string := shaded.inside
        rw [GlobalState.tt, object] at string
        cases string
      obtain ⟨w, object_w, string⟩ := Option.map_eq_some_iff.mp shaded.inside
      rw [refs ne, GlobalState.refs, object_w] at member
      cases w with
      | string s => exact absurd member List.not_mem_nil
      | table h => cases string
      | function cl => cases string
      | userdata u => cases string
      | thread th => cases string
      | proto f => cases string
      | upval uv => cases string
  · rw [marks.frame]
    rfl

theorem Clearing.clear (clearing : Clearing R (o :: l) g) :
    Clearing R l (g.clear o) ∧ Found g (g.clear o) := by
  rw [GlobalState.clear]
  split
  swap
  · next other =>
      refine ⟨⟨clearing.formed, clearing.alive, clearing.inside, fun p y object found => ?_⟩,
        Found.refl⟩
      refine (clearing.closed p y object found).imp_right ?_
      rintro ⟨member, h, rfl, halfway⟩
      refine ⟨(List.mem_cons.mp member).resolve_left ?_, h, rfl, halfway⟩
      rintro rfl
      exact other h object
  next h object =>
  have refs : g.refs o = h.refsWith Node.refs := by
    rw [GlobalState.refs, object]
    rfl
  have typed (r : Ref) (member : r ∈ h.refsWith Node.refs) : g.tt r.2 = some r.1 :=
    (clearing.formed.sound.refs o _ object (clearing.alive o _ object) r (refs ▸ member)).1
  have halfway (found : g.iswhite o = false) : Halfway g o h := by
    rcases clearing.closed o _ object found with closed | ⟨-, h', same, halfway⟩
    · rw [refs] at closed
      exact ⟨fun r member => closed r (List.mem_append_left _ (List.mem_append_left _ member)),
        fun _ r member => closed r (List.mem_append_left _ (List.mem_append_right _ member))⟩
    · cases same
      exact halfway
  -- The array part, whose values are strong if the bit is not set.
  obtain ⟨first, array, found_array⟩ : Marks (fun o => g.tt o = some .string) g
      (if g.marked o &&& Marked.valueweak ≠ 0 then
        GlobalState.changeback GlobalState.clearvalue g h.array else (g, h.array)).1 ∧
      (∀ r ∈ (if g.marked o &&& Marked.valueweak ≠ 0 then
          GlobalState.changeback GlobalState.clearvalue g h.array else (g, h.array)).2.flatMap
        TValue.refs, r ∈ h.array.flatMap TValue.refs) ∧
      (g.iswhite o = false → ∀ r ∈ (if g.marked o &&& Marked.valueweak ≠ 0 then
          GlobalState.changeback GlobalState.clearvalue g h.array else (g, h.array)).2.flatMap
        TValue.refs, (if g.marked o &&& Marked.valueweak ≠ 0 then
          GlobalState.changeback GlobalState.clearvalue g h.array else (g, h.array)).1.iswhite
            r.2 = false) := by
    split_ifs with bit
    · have clears : Clears g _ (h.array.flatMap TValue.refs) _ :=
        changeback_clears TValue.refs (fun g v typed => clearvalue_clears typed) fun r member =>
          typed r (List.mem_append_left _ (List.mem_append_right _ member))
      exact ⟨clears.toMarks, clears.subset, fun _ => clears.left⟩
    · exact ⟨Marks.refl, fun _ => id, fun found => (halfway found).array (not_not.mp bit)⟩
  generalize (if g.marked o &&& Marked.valueweak ≠ 0 then
    GlobalState.changeback GlobalState.clearvalue g h.array else (g, h.array)) = cleared at *
  obtain ⟨g₁, array'⟩ := cleared
  have second : Clears g₁ _ (h.node.flatMap Node.refs) _ :=
    changeback_clears Node.refs (fun g n typed => clearnode_clears typed) fun r member => by
      rw [first.tt]
      exact typed r (List.mem_append_right _ member)
  have later := second.toMarks
  rw [first.tt] at later
  refine clearing.setObject object (first.trans later) (fun r member => ?_) fun found r member => ?_
  · rcases List.mem_append.mp member with member | member
    · refine List.mem_append_left _ ?_
      rw [List.mem_append] at member ⊢
      exact member.imp_right (array r)
    · exact List.mem_append_right _ (second.subset r member)
  · rcases List.mem_append.mp member with member | member
    · rcases List.mem_append.mp member with member | member
      · exact later.not_white (first.not_white ((halfway found).metatable r member))
      · exact later.not_white (found_array found r member)
    · exact second.left r member

/-- `cleartable` leaves no reference to a white object in a table that is not white. -/
theorem Clearing.cleartable (clearing : Clearing R l g) :
    Clearing R [] (g.cleartable l) ∧ Found g (g.cleartable l) := by
  rw [GlobalState.cleartable]
  induction l generalizing g with
  | nil => exact ⟨clearing, Found.refl⟩
  | cons o l induction =>
      obtain ⟨cleared, later⟩ := clearing.clear
      obtain ⟨done, later'⟩ := induction cleared
      exact ⟨done, later.trans later'⟩

end Clearing

end LuaScript.GC
