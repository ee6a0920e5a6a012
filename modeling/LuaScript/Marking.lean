import LuaScript.LGc
import LuaScript.Lib.Tricolour

/-!
# What marking does

Marking an object shades white objects and nothing else: the object itself, and the objects that
`reallymarkobject` reaches through upvalues and userdata.  A shaded object is on the gray list, or
nothing that it holds is white.
-/

namespace LuaScript.GC

open Function

/-! ## Shades -/

/-- The object is traversed from a gray list. -/
def GCObject.listed : GCObject → Bool
  | .table _ => true
  | .function _ => true
  | .thread _ => true
  | .proto _ => true
  | _ => false

/-- The mark that `reallymarkobject` leaves. -/
def GCObject.shade (x : GCObject) (m : Marked) : Marked :=
  match x with
  | .userdata _ => m.white2gray.gray2black
  | .upval (.own _) => m.white2gray.gray2black
  | _ => m.white2gray

/-- How deep `reallymarkobject` follows an object. -/
def GCObject.rank : GCObject → Nat
  | .upval _ => 3
  | .userdata _ => 2
  | _ => 1

@[simp] theorem iswhite_shade (x : GCObject) (m : Marked) : (x.shade m).iswhite = false := by
  unfold GCObject.shade
  split <;> simp

theorem proper_shade (x : GCObject) {m : Marked} (proper : m.Proper) : (x.shade m).Proper := by
  unfold GCObject.shade
  split
  · exact proper.white2gray.gray2black (by simp)
  · exact proper.white2gray.gray2black (by simp)
  · exact proper.white2gray

/-! ## References that marking follows -/

/-- The references of a table that are marked although it is weak. -/
def Table.strong (h : Table) (weakkey weakvalue : Bool) : List Ref :=
  pointer .table h.metatable ++ (h.traversed weakkey weakvalue).flatMap TValue.refs

namespace GlobalState

variable (g : GlobalState) (o : Addr)

/-- What a traversal of an object marks. -/
def traced : List Ref :=
  match g.object o with
  | some (.table h) =>
      let (weakkey, weakvalue) := g.weakness h
      pointer .table h.metatable ++
        if weakkey && weakvalue then [] else (h.traversed weakkey weakvalue).flatMap TValue.refs
  | some (.thread th) => th.gt.refs ++ (th.stack.take th.top).flatMap TValue.refs
  | some x => x.refsWith Node.refs g.slot
  | none => []

end GlobalState

/-- References to objects of a set, of the right types. -/
def Inside (R : Addr → Prop) (g : GlobalState) (l : List Ref) : Prop :=
  ∀ r ∈ l, R r.2 ∧ g.tt r.2 = some r.1

/-- A set of objects that no traversal leaves. -/
structure Region (R : Addr → Prop) (g : GlobalState) : Prop where
  object : ∀ o, R o → (g.object o).isSome
  traced : ∀ o, R o → Inside R g (g.traced o)

/-- A white object has been shaded. -/
structure Shaded (R : Addr → Prop) (g g' : GlobalState) (o : Addr) (x : GCObject) : Prop where
  inside : R o
  white : g.iswhite o
  object : g.object o = some x
  marked : g'.marked o = x.shade (g.marked o)
  done : if x.listed then o ∈ g'.gray else ∀ r ∈ g.held o, g'.iswhite r.2 = false

/-- Objects of a set have been shaded, and nothing else has changed. -/
structure Marks (R : Addr → Prop) (g g' : GlobalState) : Prop where
  frame : g' = { g with marked := g'.marked, gray := g'.gray }
  each : ∀ o, g'.marked o = g.marked o ∨ ∃ x, Shaded R g g' o x
  gray : ∃ new, g'.gray = new ++ g.gray ∧ new.Nodup ∧
    ∀ o ∈ new, ∃ x, Shaded R g g' o x ∧ x.listed

/-- Objects have been shaded, and given references are not white. -/
structure Finds (R : Addr → Prop) (l : List Ref) (g g' : GlobalState) : Prop extends Marks R g g' where
  found : ∀ r ∈ l, g'.iswhite r.2 = false

section Marks

variable {R : Addr → Prop} {g g' g'' : GlobalState} {l l' : List Ref} {o : Addr} {x : GCObject}
  {tag : Tag}

theorem Shaded.not_white (shaded : Shaded R g g' o x) : g'.iswhite o = false := by
  rw [GlobalState.iswhite, shaded.marked]
  exact iswhite_shade x _

theorem Marks.refl : Marks R g g where
  frame := rfl
  each _ := .inl rfl
  gray := ⟨[], rfl, List.nodup_nil, fun _ member => absurd member List.not_mem_nil⟩

theorem Marks.object (marks : Marks R g g') : g'.object = g.object := by
  rw [marks.frame]

theorem Marks.grayagain (marks : Marks R g g') : g'.grayagain = g.grayagain := by
  rw [marks.frame]

theorem Marks.weak (marks : Marks R g g') : g'.weak = g.weak := by
  rw [marks.frame]

theorem Marks.held (marks : Marks R g g') : g'.held = g.held := by
  rw [marks.frame]
  rfl

theorem Marks.traced (marks : Marks R g g') : g'.traced = g.traced := by
  rw [marks.frame]
  rfl

theorem Marks.weakness (marks : Marks R g g') (h : Table) : g'.weakness h = g.weakness h := by
  rw [marks.frame]
  rfl

theorem Marks.tt (marks : Marks R g g') : g'.tt = g.tt := by
  rw [marks.frame]
  rfl

theorem Marks.inside (marks : Marks R g g') (inside : Inside R g l) : Inside R g' l := by
  intro r member
  rw [marks.tt]
  exact inside r member

theorem Marks.region (marks : Marks R g g') (region : Region R g) : Region R g' where
  object o inside := by
    rw [marks.object]
    exact region.object o inside
  traced o inside := by
    rw [marks.traced]
    exact marks.inside (region.traced o inside)

/-- Only white objects are marked. -/
theorem Marks.same (marks : Marks R g g') (found : g.iswhite o = false) :
    g'.marked o = g.marked o := by
  rcases marks.each o with same | ⟨x, shaded⟩
  · exact same
  · rw [shaded.white] at found
    cases found

theorem Marks.not_white (marks : Marks R g g') (found : g.iswhite o = false) :
    g'.iswhite o = false := by
  rw [GlobalState.iswhite, marks.same found]
  exact found

theorem Marks.fade (marks : Marks R g g') (white : g'.iswhite o) :
    g.iswhite o ∧ g'.marked o = g.marked o := by
  rcases marks.each o with same | ⟨x, shaded⟩
  · refine ⟨?_, same⟩
    rw [GlobalState.iswhite, same] at white
    exact white
  · rw [shaded.not_white] at white
    cases white

theorem Marks.mem_gray (marks : Marks R g g') (member : o ∈ g.gray) : o ∈ g'.gray := by
  obtain ⟨new, same, -⟩ := marks.gray
  rw [same]
  exact List.mem_append_right new member

theorem Shaded.later (shaded : Shaded R g g' o x) (later : Marks R g' g'') :
    Shaded R g g'' o x where
  inside := shaded.inside
  white := shaded.white
  object := shaded.object
  marked := (later.same shaded.not_white).trans shaded.marked
  done := by
    have done := shaded.done
    split_ifs at done ⊢
    · exact later.mem_gray done
    · exact fun r member => later.not_white (done r member)

theorem Shaded.earlier (shaded : Shaded R g' g'' o x) (earlier : Marks R g g') :
    Shaded R g g'' o x where
  inside := shaded.inside
  white := (earlier.fade shaded.white).1
  object := earlier.object ▸ shaded.object
  marked := by
    rw [shaded.marked, (earlier.fade shaded.white).2]
  done := earlier.held ▸ shaded.done

theorem Marks.trans (marks : Marks R g g') (marks' : Marks R g' g'') : Marks R g g'' where
  frame := by
    rw [marks'.frame, marks.frame]
  each o := by
    rcases marks'.each o with same' | ⟨x, shaded⟩
    · rcases marks.each o with same | ⟨x, shaded⟩
      · exact .inl (same'.trans same)
      · exact .inr ⟨x, shaded.later marks'⟩
    · exact .inr ⟨x, shaded.earlier marks⟩
  gray := by
    obtain ⟨new, same, nodup, listed⟩ := marks.gray
    obtain ⟨new', same', nodup', listed'⟩ := marks'.gray
    refine ⟨new' ++ new, ?_, ?_, ?_⟩
    · rw [same', same, List.append_assoc]
    · refine List.nodup_append'.mpr ⟨nodup', nodup, fun o member' member => ?_⟩
      obtain ⟨x, shaded, -⟩ := listed o member
      obtain ⟨x', shaded', -⟩ := listed' o member'
      have white := shaded'.white
      rw [shaded.not_white] at white
      cases white
    · intro o member
      rcases List.mem_append.mp member with member' | member
      · obtain ⟨x, shaded, listed⟩ := listed' o member'
        exact ⟨x, shaded.earlier marks, listed⟩
      · obtain ⟨x, shaded, listed⟩ := listed o member
        exact ⟨x, shaded.later marks', listed⟩

theorem Finds.nil : Finds R [] g g where
  toMarks := Marks.refl
  found _ member := absurd member List.not_mem_nil

theorem Finds.append (finds : Finds R l g g') (finds' : Finds R l' g' g'') :
    Finds R (l ++ l') g g'' where
  toMarks := finds.toMarks.trans finds'.toMarks
  found r member := by
    rcases List.mem_append.mp member with member | member
    · exact finds'.not_white (finds.found r member)
    · exact finds'.found r member

/-! ## `reallymarkobject` -/

/-- An object that is not put on a list is shaded around the marking of what it holds. -/
theorem Finds.shade {m : Marked} (inside : R o) (white : g.iswhite o)
    (object : g.object o = some x) (unlisted : x.listed = false) (marked : m.iswhite = false)
    (marks : Marks R (g.setMarked o m) g') (done : ∀ r ∈ g.held o, g'.iswhite r.2 = false) :
    Finds R [(tag, o)] g (g'.setMarked o (x.shade (g.marked o))) := by
  have keeps (p : Addr) (found : g'.iswhite p = false) :
      (g'.setMarked o (x.shade (g.marked o))).iswhite p = false := by
    rw [GlobalState.iswhite_setMarked]
    split_ifs
    · exact iswhite_shade x _
    · exact found
  have other (p : Addr) (y : GCObject) (shaded : Shaded R (g.setMarked o m) g' p y) : p ≠ o := by
    rintro rfl
    have white' := shaded.white
    rw [GlobalState.iswhite_setMarked, if_pos rfl, marked] at white'
    cases white'
  have lift (p : Addr) (y : GCObject) (shaded : Shaded R (g.setMarked o m) g' p y) :
      Shaded R g (g'.setMarked o (x.shade (g.marked o))) p y := by
    have ne := other p y shaded
    refine ⟨shaded.inside, ?_, shaded.object, ?_, ?_⟩
    · have white' := shaded.white
      rw [GlobalState.iswhite_setMarked, if_neg ne] at white'
      exact white'
    · rw [GlobalState.marked_setMarked_of_ne ne, shaded.marked,
        GlobalState.marked_setMarked_of_ne ne]
    · have done' := shaded.done
      split_ifs at done' ⊢
      · exact done'
      · exact fun r member => keeps r.2 (done' r member)
  refine ⟨⟨?_, fun p => ?_, ?_⟩, fun r member => ?_⟩
  · rw [marks.frame]
    rfl
  · rcases eq_or_ne p o with rfl | ne
    · refine .inr ⟨x, inside, white, object, update_self _ _ _, ?_⟩
      rw [unlisted]
      exact fun r member => keeps r.2 (done r member)
    · rcases marks.each p with same | ⟨y, shaded⟩
      · left
        rw [GlobalState.marked_setMarked_of_ne ne, same, GlobalState.marked_setMarked_of_ne ne]
      · exact .inr ⟨y, lift p y shaded⟩
  · obtain ⟨new, same, nodup, listed⟩ := marks.gray
    refine ⟨new, same, nodup, fun p member => ?_⟩
    obtain ⟨y, shaded, is_listed⟩ := listed p member
    exact ⟨y, lift p y shaded, is_listed⟩
  · rw [List.mem_singleton.mp member, GlobalState.iswhite_setMarked, if_pos rfl, iswhite_shade]

/-- An object that is not put on a list and gets its shade at once. -/
theorem Finds.shade_first (inside : R o) (white : g.iswhite o) (object : g.object o = some x)
    (unlisted : x.listed = false) (marks : Marks R (g.setMarked o (x.shade (g.marked o))) g')
    (done : ∀ r ∈ g.held o, g'.iswhite r.2 = false) : Finds R [(tag, o)] g g' := by
  have same : g'.marked o = x.shade (g.marked o) := by
    rw [marks.same, GlobalState.marked_setMarked_self]
    rw [GlobalState.iswhite_setMarked, if_pos rfl, iswhite_shade]
  have shaded : Finds R [(tag, o)] g (g'.setMarked o (x.shade (g.marked o))) :=
    Finds.shade inside white object unlisted (iswhite_shade x _) marks done
  rwa [GlobalState.setMarked_eq_self same] at shaded

/-- An object that is put on the gray list. -/
theorem Finds.enlist (inside : R o) (white : g.iswhite o) (object : g.object o = some x)
    (listed : x.listed) : Finds R [(tag, o)] g { g.white2gray o with gray := o :: g.gray } := by
  have shaded : Shaded R g { g.white2gray o with gray := o :: g.gray } o x := by
    refine ⟨inside, white, object, ?_, ?_⟩
    · cases x with
      | string s => cases listed
      | userdata u => cases listed
      | upval uv => cases listed
      | table h => exact update_self _ _ _
      | function cl => exact update_self _ _ _
      | thread th => exact update_self _ _ _
      | proto f => exact update_self _ _ _
    · rw [if_pos listed]
      exact List.mem_cons_self
  refine ⟨⟨rfl, fun p => ?_, [o], rfl, List.nodup_singleton o, fun p member => ?_⟩,
    fun r member => ?_⟩
  · rcases eq_or_ne p o with rfl | ne
    · exact .inr ⟨x, shaded⟩
    · exact .inl (update_of_ne ne _ _)
  · rw [List.mem_singleton.mp member]
    exact ⟨x, shaded, listed⟩
  · rw [List.mem_singleton.mp member]
    exact shaded.not_white

/-- Marking function that finds whatever it is applied to, down to a rank. -/
def FindsEach (R : Addr → Prop) (depth : Nat) (mark : GlobalState → Addr → GlobalState) : Prop :=
  ∀ g o tag, Region R g → R o → (∀ x, g.object o = some x → x.rank ≤ depth) →
    Finds R [(tag, o)] g (mark g o)

theorem TValue.rank_le {v : TValue} {tag : Tag} (ref : v.ref = some (tag, o))
    (typed : g.tt o = some tag) (object : g.object o = some x) : x.rank ≤ 2 := by
  rw [GlobalState.tt, object] at typed
  cases x with
  | upval uv =>
      have upval : tag = .upval := (Option.some.inj typed).symm
      subst upval
      cases v <;> cases ref
  | string s => exact Nat.le_succ 1
  | table h => exact Nat.le_succ 1
  | function cl => exact Nat.le_succ 1
  | userdata u => exact le_rfl
  | thread th => exact Nat.le_succ 1
  | proto f => exact Nat.le_succ 1

theorem rank_of_table (typed : g.tt o = some .table) (object : g.object o = some x) :
    x.rank ≤ 1 := by
  rw [GlobalState.tt, object] at typed
  cases x with
  | table h => exact le_rfl
  | upval uv => cases typed
  | string s => cases typed
  | function cl => cases typed
  | userdata u => cases typed
  | thread th => cases typed
  | proto f => cases typed

section FindsEach

variable {mark : GlobalState → Addr → GlobalState} {depth : Nat}

theorem FindsEach.value (finds : FindsEach R depth mark) (deep : 2 ≤ depth) (region : Region R g)
    {v : TValue} (inside : Inside R g v.refs) :
    Finds R v.refs g (GlobalState.onvalue mark g v) := by
  rw [GlobalState.onvalue]
  cases ref : v.ref with
  | none =>
      rw [TValue.refs, ref]
      exact Finds.nil
  | some r =>
      rw [TValue.refs, ref] at inside ⊢
      obtain ⟨inside, typed⟩ := inside r (by simp)
      exact finds g r.2 r.1 region inside fun x object => (TValue.rank_le ref typed object).trans deep

theorem FindsEach.table (finds : FindsEach R depth mark) (deep : 1 ≤ depth) (region : Region R g)
    {o : Option Addr} (inside : Inside R g (pointer .table o)) :
    Finds R (pointer .table o) g (GlobalState.onpointer mark g o) := by
  cases o with
  | none => exact Finds.nil
  | some o =>
      obtain ⟨inside, typed⟩ := inside (.table, o) (by simp [pointer])
      exact finds g o .table region inside fun x object => (rank_of_table typed object).trans deep

theorem region_setMarked {m : Marked} (region : Region R g) : Region R (g.setMarked o m) :=
  ⟨region.object, region.traced⟩

/-- A userdata is marked before its metatable and its environment. -/
theorem FindsEach.userdata (finds : FindsEach R depth mark) (deep : 1 ≤ depth)
    (region : Region R g) (inside : R o) (white : g.iswhite o) {u : Udata}
    (object : g.object o = some (.userdata u)) :
    let g₁ := (g.white2gray o).gray2black o
    let g₂ := GlobalState.onpointer mark g₁ u.metatable
    Finds R [(tag, o)] g (mark g₂ u.env) := by
  intro g₁ g₂
  have refs := region.traced o inside
  rw [GlobalState.traced, object] at refs
  have region₁ : Region R g₁ := region_setMarked (region_setMarked region)
  have first : Finds R (pointer .table u.metatable) g₁ g₂ :=
    finds.table deep region₁ fun r member => refs r (List.mem_append_left _ member)
  obtain ⟨inside_env, typed⟩ := refs (.table, u.env) (List.mem_append_right _ List.mem_cons_self)
  have second : Finds R [(.table, u.env)] g₂ (mark g₂ u.env) := by
    refine finds g₂ u.env .table (first.region region₁) inside_env fun x object => ?_
    rw [first.object] at object
    exact (rank_of_table typed object).trans deep
  have both := first.append second
  have same : g₁ = g.setMarked o ((GCObject.userdata u).shade (g.marked o)) := by
    simp [g₁, GlobalState.gray2black, GlobalState.white2gray, GlobalState.setMarked,
      GCObject.shade]
  refine Finds.shade_first inside white object rfl (same ▸ both.toMarks) fun r member => ?_
  rw [GlobalState.held, object] at member
  exact both.found r member

theorem FindsEach.held (finds : FindsEach R depth mark) (deep : 2 ≤ depth)
    (region : Region R g) (inside : R o) {v : TValue} (traced : g.traced o = v.refs) :
    Finds R v.refs (g.white2gray o) (GlobalState.onvalue mark (g.white2gray o) v) :=
  finds.value deep (region_setMarked region) fun r member =>
    region.traced o inside r (traced ▸ member)

end FindsEach

/-- The marking of one object finds it. -/
theorem reallymarkobject_finds (depth : Nat) :
    FindsEach R depth fun g o => if g.iswhite o then .reallymarkobject depth g o else g := by
  induction depth with
  | zero =>
      intro g o tag region inside shallow
      obtain ⟨x, object⟩ := Option.isSome_iff_exists.mp (region.object o inside)
      have := shallow x object
      cases x <;> simp [GCObject.rank] at this
  | succ depth induction =>
      intro g o tag region inside shallow
      dsimp only
      split_ifs with white
      swap
      · exact ⟨Marks.refl, by simpa using white⟩
      obtain ⟨x, object⟩ := Option.isSome_iff_exists.mp (region.object o inside)
      have rank := shallow x object
      rw [GlobalState.reallymarkobject]
      simp only [show (g.white2gray o).object o = some x from object]
      cases x with
      | string s =>
          refine Finds.shade_first inside white object rfl Marks.refl fun r member => ?_
          rw [GlobalState.held, object] at member
          exact absurd member List.not_mem_nil
      | userdata u =>
          exact induction.userdata (Nat.le_of_succ_le_succ rank) region inside white object
      | upval uv =>
          have deep : 2 ≤ depth := Nat.le_of_succ_le_succ rank
          cases uv with
          | stack th level =>
              have found := induction.held deep region inside (v := g.slot th level)
                (by rw [GlobalState.traced, object]; rfl)
              refine Finds.shade_first inside white object rfl found.toMarks fun r member => ?_
              rw [GlobalState.held, object] at member
              exact found.found r member
          | own value =>
              have found := induction.held deep region inside (v := value)
                (by rw [GlobalState.traced, object]; rfl)
              have shaded : Finds R [(tag, o)] g _ := Finds.shade inside white object rfl
                Marked.iswhite_white2gray found.toMarks fun r member => by
                  rw [GlobalState.held, object] at member
                  exact found.found r member
              have same := found.same (o := o) (by simp [GlobalState.white2gray,
                GlobalState.iswhite])
              rw [GlobalState.white2gray, GlobalState.marked_setMarked_self,
                ← GlobalState.white2gray] at same
              simp only [GlobalState.gray2black, same]
              exact shaded
      | table h => exact Finds.enlist inside white object rfl
      | function cl => exact Finds.enlist inside white object rfl
      | thread th => exact Finds.enlist inside white object rfl
      | proto f => exact Finds.enlist inside white object rfl

end Marks

end LuaScript.GC
