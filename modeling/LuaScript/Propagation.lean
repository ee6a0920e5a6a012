import LuaScript.Marking

/-!
# Traversals

What the functions of `lgc.c` mark that apply the marking of one object to many, and what
`propagatemark` does: the first gray object is traversed, so that nothing that it holds strongly is
white any more.
-/

namespace LuaScript.GC

open Function

/-! ## Marking of many objects -/

section Finds

variable {R : Addr → Prop} {g g' : GlobalState} {l : List Ref} {o : Addr} {x : GCObject} {tag : Tag}

theorem GCObject.rank_le (x : GCObject) : x.rank ≤ GlobalState.markdepth := by
  cases x <;> simp [rank, GlobalState.markdepth]

theorem markobject_finds (region : Region R g) (inside : R o) :
    Finds R [(tag, o)] g (g.markobject o) :=
  reallymarkobject_finds _ g o tag region inside fun x _ => x.rank_le

theorem markvalue_finds (region : Region R g) {v : TValue} (inside : Inside R g v.refs) :
    Finds R v.refs g (g.markvalue v) :=
  FindsEach.value (reallymarkobject_finds GlobalState.markdepth) (Nat.le_succ 2) region inside

theorem markpointer_finds (region : Region R g) {o : Option Addr}
    (inside : Inside R g (pointer tag o)) : Finds R (pointer tag o) g (g.markpointer o) := by
  cases o with
  | none => exact Finds.nil
  | some o => exact markobject_finds region (inside (tag, o) (by simp [pointer])).1

/-- For strings, `stringmark` is `markobject`. -/
theorem white2gray_eq_markobject (typed : g.tt o = some .string) :
    g.white2gray o = g.markobject o := by
  obtain ⟨x, object, string⟩ := Option.map_eq_some_iff.mp typed
  rw [GlobalState.markobject]
  split_ifs with white
  · rw [GlobalState.markdepth, GlobalState.reallymarkobject]
    simp only [show (g.white2gray o).object o = some x from object]
    cases x with
    | string s => rfl
    | table h => cases string
    | function cl => cases string
    | userdata u => cases string
    | thread th => cases string
    | proto f => cases string
    | upval uv => cases string
  · exact GlobalState.setMarked_eq_self (Marked.white2gray_eq_self (Bool.eq_false_of_not_eq_true white)).symm

theorem stringmark_finds (region : Region R g) {s : Option Addr}
    (inside : Inside R g (pointer .string s)) :
    Finds R (pointer .string s) g (g.stringmark s) := by
  cases s with
  | none => exact Finds.nil
  | some s =>
      have string := inside (.string, s) (by simp [pointer])
      have found : Finds R [(.string, s)] g (g.markobject s) := markobject_finds region string.1
      rwa [← white2gray_eq_markobject string.2] at found

theorem Inside.append_left {l' : List Ref} (inside : Inside R g (l ++ l')) : Inside R g l :=
  fun r member => inside r (List.mem_append_left l' member)

theorem Inside.append_right {l' : List Ref} (inside : Inside R g (l ++ l')) : Inside R g l' :=
  fun r member => inside r (List.mem_append_right l member)

/-- A loop that finds the references of each of its elements finds those of all. -/
theorem foldl_finds {α : Type} {f : GlobalState → α → GlobalState} (refs : α → List Ref)
    (each : ∀ g a, Region R g → Inside R g (refs a) → Finds R (refs a) g (f g a))
    (region : Region R g) {as : List α} (inside : Inside R g (as.flatMap refs)) :
    Finds R (as.flatMap refs) g (as.foldl f g) := by
  induction as generalizing g with
  | nil => exact Finds.nil
  | cons a as induction =>
      rw [List.flatMap_cons] at inside ⊢
      have first := each g a region inside.append_left
      exact first.append (induction (first.region region) (first.inside inside.append_right))

theorem markvalues_finds (region : Region R g) {values : List TValue}
    (inside : Inside R g (values.flatMap TValue.refs)) :
    Finds R (values.flatMap TValue.refs) g (g.markvalues values) :=
  foldl_finds TValue.refs (fun _ _ region inside => markvalue_finds region inside) region inside

theorem traverseclosure_finds (region : Region R g) {cl : Closure}
    (inside : Inside R g cl.refs) : Finds R cl.refs g (g.traverseclosure cl) := by
  cases cl with
  | c env upvalue =>
      have first : Finds R [(.table, env)] g (g.markobject env) :=
        markobject_finds region (inside (.table, env) List.mem_cons_self).1
      refine first.append (markvalues_finds (first.region region) (first.inside ?_))
      exact fun r member => inside r (List.mem_cons_of_mem _ member)
  | l env p upvals =>
      have first : Finds R [(.table, env)] g (g.markobject env) :=
        markobject_finds region (inside (.table, env) List.mem_cons_self).1
      have second : Finds R [(.proto, p)] _ ((g.markobject env).markobject p) :=
        markobject_finds (first.region region)
          (inside (.proto, p) (List.mem_cons_of_mem _ List.mem_cons_self)).1
      have both := first.append second
      have refs : (Closure.l env p upvals).refs =
          [(.table, env)] ++ [(.proto, p)] ++ upvals.flatMap fun uv => [(.upval, uv)] := by
        rw [Closure.refs, List.map_eq_flatMap]
        rfl
      rw [refs] at inside ⊢
      refine both.append (foldl_finds _ ?_ (both.region region) (both.inside inside.append_right))
      exact fun g uv region inside => markobject_finds region (inside _ List.mem_cons_self).1

theorem traverseproto_finds (region : Region R g) {f : Proto} (inside : Inside R g f.refs) :
    Finds R f.refs g (g.traverseproto f) := by
  have strings (g : GlobalState) (s : Option Addr) (region : Region R g)
      (inside : Inside R g (pointer .string s)) := stringmark_finds region inside
  have protos (g : GlobalState) (p : Option Addr) (region : Region R g)
      (inside : Inside R g (pointer .proto p)) := markpointer_finds region inside
  have source := stringmark_finds region
    inside.append_left.append_left.append_left.append_left
  have k := source.append (markvalues_finds (source.region region)
    (source.inside inside.append_left.append_left.append_left.append_right))
  have upvalues := k.append (foldl_finds _ strings (k.region region)
    (k.inside inside.append_left.append_left.append_right))
  have p := upvalues.append (foldl_finds _ protos (upvalues.region region)
    (upvalues.inside inside.append_left.append_right))
  exact p.append (foldl_finds _ strings (p.region region) (p.inside inside.append_right))

/-- Marking does not depend on the lists of traversed objects, nor on the mark of an object that is
not white. -/
theorem Marks.elsewhere {m : Marked} {grayagain weak : List Addr} (found : g.iswhite o = false)
    (found' : m.iswhite = false)
    (marks : Marks R { g.setMarked o m with grayagain, weak } g') :
    Marks R g ({ g' with grayagain := g.grayagain, weak := g.weak }.setMarked o (g.marked o)) := by
  set g₁ : GlobalState := { g.setMarked o m with grayagain, weak }
  have white₁ (p : Addr) : g₁.iswhite p = g.iswhite p := by
    have eq : g₁.iswhite p = (g.setMarked o m).iswhite p := rfl
    rw [eq, GlobalState.iswhite_setMarked]
    split_ifs with same
    · rw [found', same, found]
    · rfl
  have keeps (p : Addr) (found_p : g'.iswhite p = false) :
      ({ g' with grayagain := g.grayagain, weak := g.weak }.setMarked o (g.marked o)).iswhite p =
        false := by
    rw [GlobalState.iswhite_setMarked]
    split_ifs
    · exact found
    · exact found_p
  have lift (p : Addr) (y : GCObject) (shaded : Shaded R g₁ g' p y) : Shaded R g
      ({ g' with grayagain := g.grayagain, weak := g.weak }.setMarked o (g.marked o)) p y := by
    have white : g.iswhite p := white₁ p ▸ shaded.white
    have ne : p ≠ o := by
      rintro rfl
      rw [found] at white
      cases white
    refine ⟨shaded.inside, white, shaded.object, ?_, ?_⟩
    · rw [GlobalState.marked_setMarked_of_ne ne]
      exact shaded.marked.trans (congrArg y.shade (GlobalState.marked_setMarked_of_ne ne))
    · have done := shaded.done
      split_ifs at done ⊢
      · exact done
      · exact fun r member => keeps r.2 (done r member)
  refine ⟨?_, fun p => ?_, ?_⟩
  · rw [marks.frame]
    rfl
  · rcases eq_or_ne p o with rfl | ne
    · exact .inl GlobalState.marked_setMarked_self
    · rcases marks.each p with same | ⟨y, shaded⟩
      · left
        rw [GlobalState.marked_setMarked_of_ne ne]
        exact same.trans (GlobalState.marked_setMarked_of_ne ne)
      · exact .inr ⟨y, lift p y shaded⟩
  · obtain ⟨new, same, nodup, listed⟩ := marks.gray
    refine ⟨new, same, nodup, fun p member => ?_⟩
    obtain ⟨y, shaded, is_listed⟩ := listed p member
    exact ⟨y, lift p y shaded, is_listed⟩

end Finds

/-! ## One traversal -/

namespace GlobalState

variable (g : GlobalState) (o : Addr)

/-- What is certainly marked once an object has been traversed: for the tables that will be cleared,
what their bits of weakness say; for the others, everything. -/
def strong : List Ref :=
  match g.object o with
  | some (.table h) =>
      if o ∈ g.weak then
        h.strong (g.marked o &&& Marked.keyweak != 0) (g.marked o &&& Marked.valueweak != 0)
      else g.held o
  | _ => g.held o

end GlobalState

/-- What a traversal does to the contents of an object. -/
inductive Tidies : GCObject → GCObject → Prop where
  | same (x : GCObject) : Tidies x x
  | table (h : Table) : Tidies (.table h) (.table { h with node := h.node.map Node.tidy })
  | thread (th : Thread) : Tidies (.thread th) (.thread th.clear)

/-- The first gray object, `o`, has been traversed: the objects `u` have been marked, and then the
object has been put in its place. -/
structure Propagated (R : Addr → Prop) (g u g' : GlobalState) (o : Addr) (rest : List Addr)
    (x x' : GCObject) : Prop where
  marks : Marks R { g.gray2black o with gray := rest } u
  object : g.object o = some x
  result : g' = { u with
    object := update u.object o (some x')
    marked := update u.marked o (g'.marked o)
    grayagain := g'.grayagain
    weak := g'.weak }
  tidies : Tidies x x'
  white : g'.iswhite o = false
  proper : (g.marked o).Proper → (g'.marked o).Proper
  fixed : (g'.marked o).isfixed = (g.marked o).isfixed
  place :
    (g'.isblack o ∧ x.tt ≠ .thread ∧ g'.grayagain = g.grayagain ∧ g'.weak = g.weak) ∨
      (g'.isblack o = false ∧ g'.grayagain = o :: g.grayagain ∧ g'.weak = g.weak) ∨
      (g'.isblack o = false ∧ g'.grayagain = g.grayagain ∧ g'.weak = o :: g.weak)
  settled : ∀ r ∈ g'.strong o, g'.iswhite r.2 = false

section Propagated

variable {R : Addr → Prop} {g u : GlobalState} {o : Addr} {rest : List Addr} {x : GCObject}

/-- Functions and prototypes only become black. -/
theorem Propagated.of_finds (object : g.object o = some x) (found : g.iswhite o = false)
    (kind : x.tt = .function ∨ x.tt = .proto)
    (finds : Finds R (g.held o) { g.gray2black o with gray := rest } u) :
    Propagated R g u u o rest x x := by
  set g₀ : GlobalState := { g.gray2black o with gray := rest }
  have mark : u.marked o = (g.marked o).gray2black := by
    rw [finds.same]
    · exact GlobalState.marked_setMarked_self
    · exact (GlobalState.iswhite_setMarked.trans (if_pos rfl)).trans
        (Marked.iswhite_gray2black.trans found)
  have object_u : u.object o = some x := by
    rw [finds.object]
    exact object
  refine
    { marks := finds.toMarks
      object
      result := ?_
      tidies := .same x
      white := ?_
      proper := ?_
      fixed := ?_
      place := .inl ⟨?_, ?_, ?_, ?_⟩
      settled := ?_ }
  · rw [← object_u, update_eq_self, update_eq_self]
  · rw [GlobalState.iswhite, mark, Marked.iswhite_gray2black]
    exact found
  · rw [mark]
    exact fun proper => proper.gray2black found
  · rw [mark, Marked.isfixed_gray2black]
  · rw [GlobalState.isblack, mark, Marked.isblack_gray2black]
  · rcases kind with kind | kind <;> simp [kind]
  · rw [finds.frame]
    rfl
  · rw [finds.frame]
    rfl
  · have held : u.strong o = g.held o := by
      rw [GlobalState.strong, object_u]
      rcases x with _ | _ | _ | _ | _ | _ | _ <;> simp [GCObject.tt] at kind
      · rw [finds.held]
        rfl
      · rw [finds.held]
        rfl
    rw [held]
    exact finds.found

/-- A thread stays gray, and will be traversed again. -/
theorem Propagated.thread (region : Region R { g.gray2black o with gray := rest })
    (inside : R o) {th : Thread} (object : g.object o = some (.thread th))
    (found : g.iswhite o = false) :
    ∃ u, Propagated R g u
      ((({ g.gray2black o with gray := rest, grayagain := o :: g.grayagain } : GlobalState).black2gray
        o).traversestack o th) o rest (.thread th) (.thread th.clear) := by
  set g₀ : GlobalState := { g.gray2black o with gray := rest }
  set m : Marked := ((g.marked o).gray2black).black2gray
  set g₁ : GlobalState := { g₀.setMarked o m with grayagain := o :: g.grayagain, weak := g.weak }
  have start : ({ g.gray2black o with gray := rest, grayagain := o :: g.grayagain } :
      GlobalState).black2gray o = g₁ := by
    simp [g₁, g₀, m, GlobalState.black2gray, GlobalState.gray2black, GlobalState.setMarked]
  have found₀ : g₀.iswhite o = false :=
    (GlobalState.iswhite_setMarked.trans (if_pos rfl)).trans
      (Marked.iswhite_gray2black.trans found)
  have found_m : m.iswhite = false :=
    Marked.iswhite_black2gray.trans (Marked.iswhite_gray2black.trans found)
  have traced : g₀.traced o = th.gt.refs ++ (th.stack.take th.top).flatMap TValue.refs := by
    rw [GlobalState.traced, show g₀.object o = some (.thread th) from object]
  have region₁ : Region R g₁ := ⟨region.object, region.traced⟩
  have inside₁ : Inside R g₁ (th.gt.refs ++ (th.stack.take th.top).flatMap TValue.refs) :=
    traced ▸ region₁.traced o inside
  have gt := markvalue_finds region₁ inside₁.append_left
  have finds := gt.append
    (markvalues_finds (gt.region region₁) (gt.inside inside₁.append_right))
  set v := (g₁.markvalue th.gt).markvalues (th.stack.take th.top)
  have mark : v.marked o = m := by
    rw [finds.same]
    · exact GlobalState.marked_setMarked_self
    · exact (GlobalState.iswhite_setMarked.trans (if_pos rfl)).trans found_m
  refine ⟨{ v with grayagain := g₀.grayagain, weak := g₀.weak }.setMarked o (g₀.marked o), ?_⟩
  rw [start]
  refine
    { marks := finds.toMarks.elsewhere found₀ found_m
      object
      result := ?_
      tidies := .thread th
      white := ?_
      proper := ?_
      fixed := ?_
      place := .inr (.inl ⟨?_, ?_, ?_⟩)
      settled := ?_ }
  · simp only [GlobalState.traversestack, GlobalState.setObject, GlobalState.setMarked,
      update_idem]
    rw [update_eq_self]
  · rw [GlobalState.iswhite, show (g₁.traversestack o th).marked o = m from mark]
    exact found_m
  · rw [show (g₁.traversestack o th).marked o = m from mark]
    exact fun proper => (proper.gray2black found).black2gray
  · rw [show (g₁.traversestack o th).marked o = m from mark]
    exact Marked.isfixed_black2gray.trans Marked.isfixed_gray2black
  · rw [GlobalState.isblack, show (g₁.traversestack o th).marked o = m from mark]
    exact Marked.isblack_black2gray
  · show v.grayagain = o :: g.grayagain
    rw [finds.frame]
  · show v.weak = g.weak
    rw [finds.frame]
  · intro r member
    have object' : (g₁.traversestack o th).object o = some (.thread th.clear) :=
      GlobalState.object_setObject_self
    rw [GlobalState.strong, object'] at member
    simp only [GlobalState.held, object'] at member
    exact finds.found r (Thread.refs_clear member)

section Table

variable {h h' : Table} {weakkey weakvalue : Bool} {a c : GlobalState}

/-- A weak table stays gray, and will be cleared. -/
theorem Propagated.weak (object : g.object o = some (.table h)) (found : g.iswhite o = false)
    (first : Marks R { g.gray2black o with gray := rest } a)
    (metatable : ∀ r ∈ pointer .table h.metatable, a.iswhite r.2 = false)
    (second : Finds R ((h.traversed weakkey weakvalue).flatMap TValue.refs)
      { a.setMarked o ((a.marked o).setweak weakkey weakvalue) with weak := o :: a.weak } c)
    (tidies : Tidies (.table h) (.table h'))
    (same : h'.strong weakkey weakvalue = h.strong weakkey weakvalue) :
    Propagated R g ({ c with grayagain := a.grayagain, weak := a.weak }.setMarked o (a.marked o))
      ((c.setObject o (.table h')).black2gray o) o rest (.table h) (.table h') := by
  set g₀ : GlobalState := { g.gray2black o with gray := rest }
  set m : Marked := (a.marked o).setweak weakkey weakvalue
  set b : GlobalState := { a.setMarked o m with weak := o :: a.weak }
  have found₀ : g₀.iswhite o = false :=
    (GlobalState.iswhite_setMarked.trans (if_pos rfl)).trans
      (Marked.iswhite_gray2black.trans found)
  have black : a.marked o = (g.marked o).gray2black :=
    (first.same found₀).trans GlobalState.marked_setMarked_self
  have found_a : a.iswhite o = false := first.not_white found₀
  have found_m : m.iswhite = false := (Marked.iswhite_setweak weakkey weakvalue).trans found_a
  have white_b (p : Addr) (found_p : a.iswhite p = false) : b.iswhite p = false := by
    rw [show b.iswhite p = (a.setMarked o m).iswhite p from rfl, GlobalState.iswhite_setMarked]
    split_ifs
    · exact found_m
    · exact found_p
  have mark_c : c.marked o = m :=
    (second.same (white_b o found_a)).trans GlobalState.marked_setMarked_self
  have mark : ((c.setObject o (.table h')).black2gray o).marked o = m.black2gray := by
    rw [← mark_c]
    exact GlobalState.marked_setMarked_self
  have object' : ((c.setObject o (.table h')).black2gray o).object o = some (.table h') :=
    GlobalState.object_setObject_self
  have weak_eq : ((c.setObject o (.table h')).black2gray o).weak = o :: g.weak := by
    show c.weak = o :: g.weak
    rw [second.weak, ← show g₀.weak = g.weak from rfl, ← first.weak]
  refine
    { marks := first.trans (second.toMarks.elsewhere found_a found_m)
      object
      result := ?_
      tidies
      white := ?_
      proper := ?_
      fixed := ?_
      place := .inr (.inr ⟨?_, ?_, weak_eq⟩)
      settled := ?_ }
  · simp only [GlobalState.black2gray, GlobalState.setObject, GlobalState.setMarked, update_idem,
      update_self]
  · rw [GlobalState.iswhite, mark, Marked.iswhite_black2gray]
    exact found_m
  · rw [mark]
    intro proper
    refine (Marked.Proper.setweak weakkey weakvalue ?_).black2gray
    rw [black]
    exact proper.gray2black found
  · rw [mark, Marked.isfixed_black2gray, Marked.isfixed_setweak, black,
      Marked.isfixed_gray2black]
  · rw [GlobalState.isblack, mark, Marked.isblack_black2gray]
  · exact second.grayagain.trans first.grayagain
  · intro r member
    have bits : ((c.setObject o (.table h')).black2gray o).strong o = h.strong weakkey weakvalue := by
      rw [GlobalState.strong, object']
      dsimp only
      rw [if_pos (weak_eq ▸ List.mem_cons_self), mark, Marked.keyweak_black2gray,
        Marked.valueweak_black2gray, Marked.keyweak_setweak, Marked.valueweak_setweak, same]
    have keeps (found_c : c.iswhite r.2 = false) :
        ((c.setObject o (.table h')).black2gray o).iswhite r.2 = false := by
      rw [GlobalState.black2gray, GlobalState.iswhite_setMarked]
      split_ifs
      · exact Marked.iswhite_black2gray.trans (mark_c ▸ found_m)
      · exact found_c
    rw [bits, Table.strong] at member
    rcases List.mem_append.mp member with member | member
    · exact keeps (second.not_white (white_b r.2 (metatable r member)))
    · exact keeps (second.found r member)

/-- A table that is not weak becomes black. -/
theorem Propagated.table (object : g.object o = some (.table h)) (found : g.iswhite o = false)
    (finds : Finds R (h.strong false false) { g.gray2black o with gray := rest } u) :
    Propagated R g u (u.setObject o (.table { h with node := h.node.map Node.tidy })) o rest
      (.table h) (.table { h with node := h.node.map Node.tidy }) := by
  set g₀ : GlobalState := { g.gray2black o with gray := rest }
  set g' := u.setObject o (.table { h with node := h.node.map Node.tidy })
  have mark : u.marked o = (g.marked o).gray2black := by
    rw [finds.same]
    · exact GlobalState.marked_setMarked_self
    · exact (GlobalState.iswhite_setMarked.trans (if_pos rfl)).trans
        (Marked.iswhite_gray2black.trans found)
  refine
    { marks := finds.toMarks
      object
      result := ?_
      tidies := .table h
      white := ?_
      proper := ?_
      fixed := ?_
      place := .inl ⟨?_, fun thread => ?_, ?_, ?_⟩
      settled := ?_ }
  · show g' = { u with
      object := update u.object o (some (.table { h with node := h.node.map Node.tidy }))
      marked := update u.marked o (u.marked o)
      grayagain := u.grayagain
      weak := u.weak }
    rw [update_eq_self]
    rfl
  · show (u.marked o).iswhite = false
    rw [mark, Marked.iswhite_gray2black]
    exact found
  · show (g.marked o).Proper → (u.marked o).Proper
    rw [mark]
    exact fun proper => proper.gray2black found
  · show (u.marked o).isfixed = (g.marked o).isfixed
    rw [mark, Marked.isfixed_gray2black]
  · show (u.marked o).isblack
    rw [mark, Marked.isblack_gray2black]
  · cases thread
  · exact finds.grayagain
  · exact finds.weak
  · intro r member
    have strong : r ∈ h.strong false false := by
      rw [GlobalState.strong, GlobalState.object_setObject_self] at member
      dsimp only at member
      split_ifs at member
      · rw [Table.strong, Table.traversed_tidy, List.mem_append, List.mem_flatMap] at member
        rw [Table.strong, List.mem_append, List.mem_flatMap]
        refine member.imp_right ?_
        rintro ⟨v, value, member⟩
        exact ⟨v, Table.mem_traversed_strong value, member⟩
      · rw [GlobalState.held, GlobalState.object_setObject_self] at member
        exact Table.held_tidy member
    exact finds.found r strong

theorem Propagated.traverseentries (object : g.object o = some (.table h))
    (found : g.iswhite o = false)
    (first : Finds R (pointer .table h.metatable) { g.gray2black o with gray := rest } a)
    (region : Region R a)
    (inside : Inside R a
      (if weakkey && weakvalue then [] else (h.traversed weakkey weakvalue).flatMap TValue.refs)) :
    ∃ u x', Propagated R g u
      (if (a.traverseentries o h weakkey weakvalue).2 then
        (a.traverseentries o h weakkey weakvalue).1.black2gray o
      else (a.traverseentries o h weakkey weakvalue).1) o rest (.table h) x' := by
  rw [GlobalState.traverseentries]
  cases weak : weakkey || weakvalue with
  | false =>
      obtain ⟨rfl, rfl⟩ := Bool.or_eq_false_iff.mp weak
      have finds := first.append (markvalues_finds region inside)
      exact ⟨_, _, Propagated.table object found finds⟩
  | true =>
      dsimp only
      set b : GlobalState :=
        { a.setMarked o ((a.marked o).setweak weakkey weakvalue) with weak := o :: a.weak }
      cases both : weakkey && weakvalue with
      | true =>
          obtain ⟨rfl, rfl⟩ := Bool.and_eq_true_iff.mp both
          have nothing : (h.traversed true true).flatMap TValue.refs = [] := by
            simp [Table.traversed]
          have second : Finds R ((h.traversed true true).flatMap TValue.refs) b b :=
            nothing ▸ Finds.nil
          have object_b : b.object o = some (.table h) := by
            show a.object o = _
            rw [first.object]
            exact object
          have same : b.setObject o (.table h) = b := by
            rw [GlobalState.setObject, ← object_b, update_eq_self]
          have weak := Propagated.weak object found first.toMarks first.found second (.same _) rfl
          rw [same] at weak
          exact ⟨_, _, weak⟩
      | false =>
          rw [both, if_neg Bool.false_ne_true] at inside
          have region_b : Region R b := ⟨region.object, region.traced⟩
          have second := markvalues_finds region_b inside
          exact ⟨_, _, Propagated.weak object found first.toMarks first.found second (.table h)
            (congrArg₂ (· ++ ·) rfl (by rw [Table.traversed_tidy]))⟩

/-- `traversetable` -/
theorem Propagated.traversetable (region : Region R { g.gray2black o with gray := rest })
    (inside : R o) (object : g.object o = some (.table h)) (found : g.iswhite o = false) :
    ∃ u x', Propagated R g u
      (let (g, weak) := GlobalState.traversetable { g.gray2black o with gray := rest } o h
        if weak then g.black2gray o else g) o rest (.table h) x' := by
  have refs := region.traced o inside
  rw [GlobalState.traced, show ({ g.gray2black o with gray := rest } : GlobalState).object o =
    some (.table h) from object] at refs
  have first := markpointer_finds region (Inside.append_left refs)
  refine Propagated.traverseentries object found first (first.region region) ?_
  rw [first.weakness]
  exact first.inside (Inside.append_right refs)

end Table

/-- `propagatemark` traverses the first gray object. -/
theorem propagatemark_spec (gray : g.gray = o :: rest) (region : Region R g) (inside : R o)
    (object : g.object o = some x) (listed : x.listed) (found : g.iswhite o = false) :
    ∃ u x', Propagated R g u g.propagatemark o rest x x' := by
  have region₀ : Region R { g.gray2black o with gray := rest } := ⟨region.object, region.traced⟩
  have refs := region₀.traced o inside
  have held (object : g.object o = some x) : ({ g.gray2black o with gray := rest } :
      GlobalState).traced o = g.traced o := rfl
  rw [GlobalState.propagatemark, gray]
  simp only [show (g.gray2black o).object o = some x from object]
  cases x with
  | string s => cases listed
  | userdata u => cases listed
  | upval uv => cases listed
  | table h => exact Propagated.traversetable region₀ inside object found
  | thread th =>
      obtain ⟨u, propagated⟩ := Propagated.thread region₀ inside object found
      exact ⟨u, _, propagated⟩
  | function cl =>
      rw [held object, GlobalState.traced, object] at refs
      have finds := traverseclosure_finds region₀ refs
      refine ⟨_, _, Propagated.of_finds object found (.inl rfl) ?_⟩
      rw [GlobalState.held, object]
      exact finds
  | proto f =>
      rw [held object, GlobalState.traced, object] at refs
      have finds := traverseproto_finds region₀ refs
      refine ⟨_, _, Propagated.of_finds object found (.inr rfl) ?_⟩
      rw [GlobalState.held, object]
      exact finds

end Propagated

end LuaScript.GC
