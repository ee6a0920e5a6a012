import LuaScript.MarkPhase

/-!
# All gray objects

`propagateall` empties the list of gray objects: every traversal takes one object off it, and puts
only objects on it that were white.  The atomic step calls it again and again, with other lists as
the gray list.
-/

namespace LuaScript.GC

open Function

/-! ## The loop over the gray objects -/

namespace GlobalState

variable (g : GlobalState)

/-- Everything that is not white is inside a set that no traversal leaves. -/
structure Within (R : Addr → Prop) : Prop where
  region : Region R g
  inside : ∀ o x, g.object o = some x → g.iswhite o = false → R o

/-- The white objects of the root list. -/
def whites : List Addr := g.rootgc.filter fun o => g.iswhite o

/-- The number of traversals that are certainly enough. -/
def work : Nat := g.gray.length + g.whites.length

end GlobalState

/-- Objects have been found, and perhaps changed. -/
structure Found (g g' : GlobalState) : Prop where
  frame : g' = { g with
    object := g'.object
    marked := g'.marked
    gray := g'.gray
    grayagain := g'.grayagain
    weak := g'.weak }
  found : ∀ o, g.iswhite o = false → g'.iswhite o = false
  tt : g'.tt = g.tt

/-- A later state of the same marking. -/
structure Later (g g' : GlobalState) : Prop extends Found g g' where
  userdata : ∀ o u, g'.object o = some (.userdata u) → g.object o = some (.userdata u)
  gfasttm : g'.gfasttm = g.gfasttm

/-- A later state, with longer lists. -/
structure Longer (g g' : GlobalState) : Prop extends Later g g' where
  grayagain : ∀ o ∈ g.grayagain, o ∈ g'.grayagain
  weak : ∀ o ∈ g.weak, o ∈ g'.weak

section Propagate

variable {R W : Addr → Prop} {g g' g'' u : GlobalState} {o : Addr} {rest : List Addr}
  {x x' : GCObject}

theorem Found.refl : Found g g := ⟨rfl, fun _ => id, rfl⟩

theorem Found.trans (first : Found g g') (second : Found g' g'') : Found g g'' where
  frame := by
    rw [second.frame, first.frame]
  found o found := second.found o (first.found o found)
  tt := second.tt.trans first.tt

theorem Found.roots (found : Found g g') : g'.roots = g.roots := by
  rw [found.frame]
  rfl

theorem Later.trans (first : Later g g') (second : Later g' g'') : Later g g'' where
  toFound := first.toFound.trans second.toFound
  userdata o u object := first.userdata o u (second.userdata o u object)
  gfasttm := second.gfasttm.trans first.gfasttm

theorem Longer.refl : Longer g g := ⟨⟨Found.refl, fun _ _ => id, rfl⟩, fun _ => id, fun _ => id⟩

theorem Longer.trans (first : Longer g g') (second : Longer g' g'') : Longer g g'' where
  toLater := first.toLater.trans second.toLater
  grayagain o member := second.grayagain o (first.grayagain o member)
  weak o member := second.weak o (first.weak o member)

theorem Marks.longer (marks : Marks R g g') : Longer g g' where
  frame := by
    rw [marks.frame]
  found _ found := marks.not_white found
  tt := marks.tt
  userdata o u object := marks.object ▸ object
  gfasttm := by
    rw [marks.frame]
    rfl
  grayagain _ member := marks.grayagain ▸ member
  weak _ member := marks.weak ▸ member

theorem Marks.within (marks : Marks R g g') (within : g.Within R) : g'.Within R where
  region := marks.region within.region
  inside o x object found := by
    rw [marks.object] at object
    rcases marks.each o with same | ⟨y, shaded⟩
    · refine within.inside o x object ?_
      rw [GlobalState.iswhite, ← same]
      exact found
    · exact shaded.inside

theorem Propagated.frame (propagated : Propagated R g u g' o rest x x') :
    g' = { g with
      object := g'.object
      marked := g'.marked
      gray := g'.gray
      grayagain := g'.grayagain
      weak := g'.weak } := by
  rw [propagated.result, propagated.marks.frame]
  rfl

theorem Propagated.longer (propagated : Propagated R g u g' o rest x x') : Longer g g' where
  frame := propagated.frame
  found _ found := propagated.not_white found
  tt := propagated.tt
  grayagain p member := by
    rcases propagated.place with ⟨-, -, again, -⟩ | ⟨-, again, -⟩ | ⟨-, again, -⟩
    · exact again ▸ member
    · exact again ▸ List.mem_cons_of_mem o member
    · exact again ▸ member
  weak p member := by
    rcases propagated.place with ⟨-, -, -, weak⟩ | ⟨-, -, weak⟩ | ⟨-, -, weak⟩
    · exact weak ▸ member
    · exact weak ▸ member
    · exact weak ▸ List.mem_cons_of_mem o member
  userdata p v object := by
    rw [propagated.object_eq] at object
    rcases eq_or_ne p o with rfl | ne
    · rw [update_self] at object
      rw [propagated.object]
      cases propagated.tidies with
      | same => exact object
      | table h => cases object
      | thread th => cases object
    · rwa [update_of_ne ne] at object
  gfasttm := by
    funext et ename
    exact gfasttm_of_tidies propagated.object propagated.tidies propagated.object_eq et ename

theorem Propagated.within (propagated : Propagated R g u g' o rest x x') (formed : g.Formed)
    (found : g.iswhite o = false) (within : g.Within R) : g'.Within R where
  region := by
    have traced (p : Addr) : g'.traced p = g.traced p :=
      traced_of_tidies formed.opened propagated.object propagated.tidies propagated.object_eq
        (by rw [propagated.frame]) p
    refine ⟨fun p inside => ?_, fun p inside r member => ?_⟩
    · rw [propagated.object_eq]
      rcases eq_or_ne p o with rfl | ne
      · rw [update_self]
        rfl
      · rw [update_of_ne ne]
        exact within.region.object p inside
    · rw [traced] at member
      rw [propagated.tt]
      exact within.region.traced p inside r member
  inside p y object found' := by
    rcases eq_or_ne p o with rfl | ne
    · exact within.inside p x propagated.object found
    · rw [propagated.object_eq, update_of_ne ne] at object
      rcases propagated.each ne with same | ⟨z, shaded⟩
      · refine within.inside p y object ?_
        rw [GlobalState.iswhite, ← same]
        exact found'
      · exact shaded.inside

/-! ### The end of the loop -/

theorem Propagated.rootgc (propagated : Propagated R g u g' o rest x x') :
    g'.rootgc = g.rootgc := by
  rw [propagated.frame]

/-- Gray objects are in the root list. -/
theorem GlobalState.Formed.mem_rootgc (formed : g.Formed) (object : g.object o = some x)
    (listed : x.listed) : o ∈ g.rootgc := by
  have member : o ∈ g.rootgc ++ g.tmudata := by
    refine (formed.rooted.mem_iff o).mpr ⟨x, object, ?_⟩
    cases x <;> first | rfl | cases listed
  refine (List.mem_append.mp member).resolve_right fun again => ?_
  obtain ⟨u, userdata⟩ := formed.rooted.tmudata o again
  cases object.symm.trans userdata
  cases listed

theorem Listed.found (listed : Listed g.object g.marked g.gray g.grayagain g.weak)
    (member : o ∈ g.gray ++ (g.grayagain ++ g.weak)) :
    ∃ x, g.object o = some x ∧ x.listed ∧ g.iswhite o = false := by
  obtain ⟨x, object, listed, gray⟩ := listed.mem o member
  simp only [Marked.isgray, Bool.and_eq_true, Bool.not_eq_true'] at gray
  exact ⟨x, object, listed, gray.2⟩

/-- Every traversal brings the end nearer. -/
theorem Propagated.work_lt (propagated : Propagated R g u g' o rest x x')
    (gray : g.gray = o :: rest) (formed : g.Formed) (found : g.iswhite o = false) :
    g'.work < g.work := by
  obtain ⟨new, gray_u, nodup, shaded⟩ := propagated.marks.gray
  have gray' : g'.gray = new ++ rest := by
    rw [propagated.result]
    exact gray_u
  have white {p : Addr} (member : p ∈ new) : g.iswhite p ∧ p ∈ g.rootgc ∧ g'.iswhite p = false := by
    obtain ⟨y, shaded, listed⟩ := shaded p member
    have ne : p ≠ o := by
      rintro rfl
      have white := shaded.white
      rw [show ({ g.gray2black p with gray := rest } : GlobalState).iswhite p =
        (g.gray2black p).iswhite p from rfl, GlobalState.gray2black, GlobalState.iswhite_setMarked,
        if_pos rfl, Marked.iswhite_gray2black] at white
      rw [GlobalState.iswhite] at found
      rw [found] at white
      cases white
    refine ⟨?_, formed.mem_rootgc shaded.object listed, ?_⟩
    · have white := shaded.white
      rw [show ({ g.gray2black o with gray := rest } : GlobalState).iswhite p =
        (g.gray2black o).iswhite p from rfl, GlobalState.gray2black, GlobalState.iswhite_setMarked,
        if_neg ne] at white
      exact white
    · rw [GlobalState.iswhite, propagated.marked_of_ne ne]
      exact shaded.not_white
  have whites_nodup : g'.whites.Nodup := by
    rw [GlobalState.whites, propagated.rootgc]
    exact (List.nodup_append.mp formed.rooted.nodup).1.filter _
  have fewer : (new ++ g'.whites).length ≤ g.whites.length := by
    refine (List.Nodup.subperm ?_ fun p member => ?_).length_le
    · refine List.nodup_append'.mpr ⟨nodup, whites_nodup, fun p member member' => ?_⟩
      have white' := (List.mem_filter.mp member').2
      rw [(white member).2.2] at white'
      cases white'
    · rcases List.mem_append.mp member with member | member
      · exact List.mem_filter.mpr ⟨(white member).2.1, (white member).1⟩
      · obtain ⟨root, white'⟩ := List.mem_filter.mp member
        rw [propagated.rootgc] at root
        refine List.mem_filter.mpr ⟨root, eq_true_of_ne_false fun found' => ?_⟩
        rw [propagated.not_white found'] at white'
        cases white'
  simp only [GlobalState.work, gray, gray', List.length_append, List.length_cons] at fewer ⊢
  omega

/-- The root list is long enough for the loop of `propagateall`. -/
theorem work_le (formed : g.Formed)
    (listed : Listed g.object g.marked g.gray g.grayagain g.weak) :
    g.work ≤ g.rootgc.length := by
  have nodup := (List.nodup_append.mp formed.rooted.nodup).1
  rw [GlobalState.work, ← List.length_append]
  refine (List.Nodup.subperm ?_ fun p member => ?_).length_le
  · refine List.nodup_append'.mpr
      ⟨(List.nodup_append.mp listed.nodup).1, nodup.filter _, fun p member member' => ?_⟩
    obtain ⟨y, -, -, found⟩ := listed.found (List.mem_append_left _ member)
    have white := (List.mem_filter.mp member').2
    rw [found] at white
    cases white
  · rcases List.mem_append.mp member with member | member
    · obtain ⟨y, object, is_listed, -⟩ := listed.found (List.mem_append_left _ member)
      exact formed.mem_rootgc object is_listed
    · exact (List.mem_filter.mp member).1

end Propagate

/-- A marking in progress, inside a set of objects. -/
structure Ongoing (R W : Addr → Prop) (g : GlobalState) : Prop where
  formed : g.Formed
  marking : g.Marking W
  within : g.Within R

section Ongoing

variable {R W W' : Addr → Prop} {g g' : GlobalState} {o : Addr} {rest : List Addr}

theorem Ongoing.marks (ongoing : Ongoing R W g) (marks : Marks R g g') : Ongoing R W g' where
  formed := marks.formed ongoing.formed ongoing.marking.alive
  marking := marks.marking ongoing.formed ongoing.marking
  within := marks.within ongoing.within

/-- One traversal. -/
theorem Ongoing.propagatemark (ongoing : Ongoing R W g) (gray : g.gray = o :: rest) :
    Ongoing R W g.propagatemark ∧ Longer g g.propagatemark ∧ g.propagatemark.work < g.work := by
  obtain ⟨formed, marking, within⟩ := ongoing
  obtain ⟨x, object, listed, found⟩ :=
    marking.listed.found (List.mem_append_left _ (gray ▸ List.mem_cons_self))
  obtain ⟨u, x', propagated⟩ :=
    propagatemark_spec gray within.region (within.inside o x object found) object listed found
  refine ⟨⟨?_, ?_, ?_⟩, propagated.longer, ?_⟩
  · exact propagated.formed listed formed marking.alive
  · exact propagated.marking gray listed formed marking
  · exact propagated.within formed found within
  · exact propagated.work_lt gray formed found

theorem Ongoing.propagatemarks (rounds : Nat) (ongoing : Ongoing R W g) (enough : g.work ≤ rounds) :
    Ongoing R W (GlobalState.propagatemarks rounds g) ∧
      Longer g (GlobalState.propagatemarks rounds g) ∧
      (GlobalState.propagatemarks rounds g).gray = [] := by
  induction rounds generalizing g with
  | zero =>
      have empty : g.gray.length = 0 := by
        rw [GlobalState.work] at enough
        omega
      exact ⟨ongoing, Longer.refl, List.eq_nil_of_length_eq_zero empty⟩
  | succ rounds induction =>
      rw [GlobalState.propagatemarks]
      cases gray : g.gray with
      | nil => exact ⟨ongoing, Longer.refl, gray⟩
      | cons o rest =>
          obtain ⟨ongoing', later, less⟩ := ongoing.propagatemark gray
          obtain ⟨done, later', empty⟩ := induction ongoing' (by omega)
          exact ⟨done, later.trans later', empty⟩

/-- `propagateall` ends, and leaves no gray object on its list. -/
theorem Ongoing.propagateall (ongoing : Ongoing R W g) :
    Ongoing R W g.propagateall ∧ Longer g g.propagateall ∧ g.propagateall.gray = [] :=
  ongoing.propagatemarks _ (work_le ongoing.formed ongoing.marking.listed)

/-- What has been visited need not wait any longer. -/
theorem Ongoing.fewer (ongoing : Ongoing R W g)
    (settled : ∀ o, g.iswhite o = false → W o →
      (o ∈ g.gray ∨ W' o) ∨ Tricolour.Settled g.edge (fun o => g.iswhite o) o) :
    Ongoing R W' g where
  formed := ongoing.formed
  marking :=
    { alive := ongoing.marking.alive
      listed := ongoing.marking.listed
      covers := by
        intro o found
        rcases ongoing.marking.covers o found with (gray | waits) | done
        · exact .inl (.inl gray)
        · exact settled o (Bool.eq_false_of_not_eq_true found) waits
        · exact .inr done
      main := ongoing.marking.main
      registry := ongoing.marking.registry }
  within := ongoing.within

/-- One of the other lists becomes the gray list. -/
theorem Ongoing.regray {gray grayagain weak : List Addr} (ongoing : Ongoing R W g)
    (empty : g.gray = [])
    (perm : (gray ++ (grayagain ++ weak)).Perm (g.grayagain ++ g.weak))
    (kept : ∀ o ∈ weak, o ∈ g.weak) (moved : ∀ o ∈ g.weak, o ∈ weak ∨ o ∈ gray)
    (waits : ∀ o, W o → W' o ∨ o ∈ gray) :
    Ongoing R W' { g with gray, grayagain, weak } where
  formed := ongoing.formed.lists
  marking :=
    { alive := ongoing.marking.alive
      listed := by
        have listed := ongoing.marking.listed
        rw [empty] at listed
        refine ⟨perm.nodup_iff.mpr listed.nodup, fun o member => ?_, fun o x object is_listed gray => ?_⟩
        · exact listed.mem o (perm.mem_iff.mp member)
        · exact perm.mem_iff.mpr (listed.listed o x object is_listed gray)
      covers := by
        intro o found
        rcases ongoing.marking.covers o found with (was | waiting) | settled
        · rw [empty] at was
          exact absurd was List.not_mem_nil
        · exact .inl (waits o waiting).symm
        · by_cases member : o ∈ gray
          · exact .inl (.inl member)
          · right
            have same : o ∈ weak ↔ o ∈ g.weak :=
              ⟨kept o, fun was => (moved o was).resolve_right member⟩
            have strong : ({ g with gray, grayagain, weak } : GlobalState).strong o = g.strong o := by
              simp only [GlobalState.strong, same]
              rfl
            rintro p ⟨tag, leads⟩
            rw [strong] at leads
            exact settled p ⟨tag, leads⟩
      main := ongoing.marking.main
      registry := ongoing.marking.registry }
  within := ⟨⟨ongoing.within.region.object, ongoing.within.region.traced⟩, ongoing.within.inside⟩

/-! ## Open upvalues -/

theorem Region.slot (region : Region R g) (inside : R o) {L : Addr} {level : Nat}
    (is_open : g.object o = some (.upval (.stack L level))) : Inside R g (g.slot L level).refs := by
  have traced := region.traced o inside
  rw [GlobalState.traced, is_open] at traced
  exact traced

/-- What gray upvalues of a list point to has been marked. -/
theorem remarkupvals_finds (coloured : ∀ o x, g.object o = some x → x.Coloured (g.marked o))
    (within : g.Within R) (uvs : List Addr) :
    ∃ l, Finds R l g (uvs.foldl GlobalState.remarkupval g) ∧
      ∀ uv ∈ uvs, ∀ L level, g.object uv = some (.upval (.stack L level)) →
        g.iswhite uv = false → ∀ r ∈ (g.slot L level).refs, r ∈ l := by
  induction uvs generalizing g with
  | nil => exact ⟨[], Finds.nil, fun uv member => absurd member List.not_mem_nil⟩
  | cons uv uvs induction =>
      have first : ∃ l, Finds R l g (g.remarkupval uv) ∧
          ∀ L level, g.object uv = some (.upval (.stack L level)) → g.iswhite uv = false →
            ∀ r ∈ (g.slot L level).refs, r ∈ l := by
        rw [GlobalState.remarkupval]
        split
        · next L level is_open =>
            split_ifs with gray
            · have found : g.iswhite uv = false := by
                simp only [GlobalState.isgray, Marked.isgray, Bool.and_eq_true,
                  Bool.not_eq_true'] at gray
                exact gray.2
              have inside := within.region.slot (within.inside uv _ is_open found) is_open
              refine ⟨_, markvalue_finds within.region inside, fun L' level' is_open' _ r member => ?_⟩
              rw [is_open] at is_open'
              cases is_open'
              exact member
            · refine ⟨[], Finds.nil, fun L' level' is_open' found => ?_⟩
              -- An open upvalue that is not white is gray.
              have black : (g.marked uv).isblack = false := by
                refine Bool.eq_false_of_not_eq_true fun black => ?_
                cases (coloured uv _ is_open).black black
              rw [GlobalState.iswhite] at found
              simp [GlobalState.isgray, Marked.isgray, black, found] at gray
        · next closed =>
            exact ⟨[], Finds.nil, fun L level is_open => absurd is_open (closed L level)⟩
      obtain ⟨l, finds, done⟩ := first
      obtain ⟨l', finds', done'⟩ := induction
        (fun o x object => by
          rw [finds.object] at object
          rcases finds.each o with same | ⟨y, shaded⟩
          · exact same ▸ coloured o x object
          · rw [shaded.marked, ← Option.some.inj (object.symm.trans shaded.object)]
            exact coloured_shade (coloured o x object).proper shaded.white)
        (finds.within within)
      refine ⟨l ++ l', finds.append finds', fun uv' member L level is_open found r slot => ?_⟩
      rcases List.mem_cons.mp member with rfl | member
      · exact List.mem_append_left l' (done L level is_open found r slot)
      · refine List.mem_append_right l (done' uv' member L level ?_ (finds.not_white found) r ?_)
        · rw [finds.object]
          exact is_open
        · rw [show (g.remarkupval uv).slot L level = g.slot L level by rw [finds.frame]; rfl]
          exact slot

/-- After `remarkupvals`, the open upvalues need not wait any longer. -/
theorem Ongoing.remarkupvals (ongoing : Ongoing R W g)
    (open_or : ∀ o, W o → W' o ∨ (g.level o).isSome) :
    Ongoing R W' g.remarkupvals ∧ Longer g g.remarkupvals := by
  obtain ⟨l, finds, done⟩ :=
    remarkupvals_finds ongoing.formed.coloured.each ongoing.within g.uvhead
  rw [GlobalState.remarkupvals]
  generalize g.uvhead.foldl GlobalState.remarkupval g = g' at finds ⊢
  refine ⟨(ongoing.marks finds.toMarks).fewer fun o found waits => ?_, finds.longer⟩
  refine (open_or o waits).imp .inr fun is_open => ?_
  obtain ⟨L, level, is_open⟩ := GlobalState.object_of_level is_open
  have strong : g'.strong o = (g.slot L level).refs := by
    rw [GlobalState.strong, finds.object, is_open]
    dsimp only
    rw [finds.held, GlobalState.held, is_open]
    rfl
  rintro p ⟨tag, leads⟩
  rw [strong] at leads
  refine (Bool.not_eq_true _).mpr ?_
  rcases finds.each o with same | ⟨x, shaded⟩
  · have found' : g.iswhite o = false := by
      rw [GlobalState.iswhite, ← same]
      exact found
    have member : o ∈ g.uvhead := (ongoing.formed.opened.mem_iff o).mpr ⟨L, level, is_open⟩
    exact finds.found (tag, p) (done o member L level is_open found' (tag, p) leads)
  · have this : x = .upval (.stack L level) := Option.some.inj (shaded.object.symm.trans is_open)
    subst this
    refine shaded.done (tag, p) ?_
    rw [GlobalState.held, is_open]
    exact leads

end Ongoing

end LuaScript.GC
