import LuaScript.WeakTables

/-!
# The atomic step

The atomic step ends a marking.  It visits everything that still waits, so that every object that is
not white refers only to objects that are not white; then the white changes, and the objects with
the old white are dead.
-/

namespace LuaScript.GC

open Function

section References

variable {g : GlobalState} {o : Addr} {r : Ref}

theorem Node.held_of_refs {n : Node} (member : r ∈ n.refs) : r ∈ n.held := by
  rw [refs] at member
  split_ifs at member with empty
  · exact absurd member List.not_mem_nil
  · have live : n.dead = false := Bool.eq_false_of_not_eq_true fun dead => empty (n.buried dead)
    rw [held, live]
    exact member

theorem GlobalState.held_of_refs (member : r ∈ g.refs o) : r ∈ g.held o := by
  rw [refs] at member
  rw [held]
  cases object : g.object o with
  | none =>
      rw [object] at member
      exact absurd member List.not_mem_nil
  | some x =>
      rw [object] at member
      cases x with
      | table h =>
          rcases List.mem_append.mp member with member | member
          · exact List.mem_append_left _ member
          · obtain ⟨n, node, member⟩ := List.mem_flatMap.mp member
            exact List.mem_append_right _ (List.mem_flatMap.mpr ⟨n, node, Node.held_of_refs member⟩)
      | string s => exact member
      | function cl => exact member
      | userdata u => exact member
      | thread th => exact member
      | proto f => exact member
      | upval uv => cases uv <;> exact member

/-- A traversal marks only what a program can read. -/
theorem GlobalState.refs_of_traced (member : r ∈ g.traced o) : r ∈ g.refs o := by
  rw [traced] at member
  rw [refs]
  cases object : g.object o with
  | none =>
      rw [object] at member
      exact absurd member List.not_mem_nil
  | some x =>
      rw [object] at member
      cases x with
      | table h =>
          dsimp only at member
          rcases List.mem_append.mp member with member | member
          · exact List.mem_append_left _ (List.mem_append_left _ member)
          split_ifs at member
          · exact absurd member List.not_mem_nil
          obtain ⟨v, value, member⟩ := List.mem_flatMap.mp member
          rcases List.mem_append.mp (Table.mem_traversed_strong value) with value | value
          · refine List.mem_append_left _ (List.mem_append_right _ ?_)
            exact List.mem_flatMap.mpr ⟨v, List.mem_reverse.mp value, member⟩
          · obtain ⟨n, node, value⟩ := List.mem_flatMap.mp value
            obtain ⟨node, live⟩ := List.mem_filter.mp node
            refine List.mem_append_right _
              (List.mem_flatMap.mpr ⟨n, List.mem_reverse.mp node, ?_⟩)
            rw [Node.refs, if_neg (by simpa using live), List.mem_append]
            rcases List.mem_append.mp value with value | value
            · exact .inl (List.mem_singleton.mp value ▸ member)
            · exact .inr (List.mem_singleton.mp value ▸ member)
      | thread th =>
          rcases List.mem_append.mp member with member | member
          · exact List.mem_append_left _ member
          · refine List.mem_append_right _ ?_
            obtain ⟨v, value, member⟩ := List.mem_flatMap.mp member
            refine List.mem_flatMap.mpr ⟨v, ?_, member⟩
            exact (List.take_sublist_take_left (le_max_left _ _)).subset value
      | string s => exact member
      | function cl => exact member
      | userdata u => exact member
      | proto f => exact member
      | upval uv => exact member

/-- No traversal leaves the objects that exist, when none of them is dead. -/
theorem GlobalState.Formed.within (formed : g.Formed) (alive : g.Alive) :
    g.Within fun o => (g.object o).isSome where
  region :=
    { object := fun _ => id
      traced := fun o exists_o r member => by
        obtain ⟨x, object⟩ := Option.isSome_iff_exists.mp exists_o
        have has := formed.sound.refs o x object (alive o x object) r (refs_of_traced member)
        exact ⟨has.isSome, has.1⟩ }
  inside _ _ object _ := Option.isSome_of_eq_some object

theorem GlobalState.Formed.inside_roots (formed : g.Formed) :
    Inside (fun o => (g.object o).isSome) g g.roots := by
  intro r root
  have has := formed.sound.roots r root
  exact ⟨has.isSome, has.1⟩

end References

section Atomic

variable {R W : Addr → Prop} {g : GlobalState} {o : Addr}

/-- References from the global state, apart from the registry and the main thread. -/
def GlobalState.bases (g : GlobalState) : List Ref :=
  (.thread, g.running) :: g.mt.flatMap (pointer .table)

theorem GlobalState.roots_of_bases {r : Ref} (member : r ∈ g.bases) : r ∈ g.roots := by
  simp only [bases, roots, List.mem_cons, List.mem_append] at member ⊢
  tauto

theorem bases_finds (within : g.Within R) (inside : Inside R g g.bases) :
    Finds R g.bases g (g.markobject g.running).markmt := by
  have first : Finds R [(.thread, g.running)] g (g.markobject g.running) :=
    markobject_finds within.region (inside _ List.mem_cons_self).1
  have mt : (g.markobject g.running).mt = g.mt := by rw [first.frame]
  rw [GlobalState.markmt, mt]
  refine first.append (foldl_finds _ ?_ (first.region within.region) (first.inside ?_))
  · exact fun g o region inside => markpointer_finds region inside
  · exact fun r member => inside r (List.mem_cons_of_mem _ member)

/-- The open upvalues have been visited. -/
theorem Ongoing.remarkopen (ongoing : Ongoing R g.waiting g) :
    Ongoing R (fun o => o ∈ g.remarkopen.grayagain ∨ o ∈ g.remarkopen.weak ∨
        o ∈ g.remarkopen.tmudata) g.remarkopen ∧
      g.remarkopen.gray = [] ∧ Later g g.remarkopen := by
  obtain ⟨remarked, longer⟩ : Ongoing R (fun o => o ∈ g.grayagain ∨ o ∈ g.weak ∨ o ∈ g.tmudata) _ ∧
      Longer g g.remarkupvals := ongoing.remarkupvals fun o waits => by
    rw [GlobalState.waiting] at waits
    tauto
  obtain ⟨done, longer', empty⟩ := remarked.propagateall
  replace longer := longer.trans longer'
  refine ⟨done.fewer fun o _ waits => .inl (.inr ?_), empty, longer.toLater⟩
  rw [GlobalState.remarkopen, show g.remarkupvals.propagateall.tmudata = g.tmudata by
    rw [longer.frame]]
  exact waits.imp (longer.grayagain o) (Or.imp_left (longer.weak o))

/-- The weak tables and the roots have been visited. -/
theorem Ongoing.remarkweak
    (ongoing : Ongoing R (fun o => o ∈ g.grayagain ∨ o ∈ g.weak ∨ o ∈ g.tmudata) g)
    (empty : g.gray = []) (inside : Inside R g g.bases) :
    Ongoing R (fun o => o ∈ g.remarkweak.grayagain ∨ o ∈ g.remarkweak.tmudata) g.remarkweak ∧
      g.remarkweak.gray = [] ∧ Later g g.remarkweak ∧
      ∀ r ∈ g.bases, g.remarkweak.iswhite r.2 = false := by
  have again : Ongoing R (fun o => o ∈ g.grayagain ∨ o ∈ g.tmudata)
      { g with gray := g.weak, weak := [] } := by
    refine ongoing.regray empty ?_ (fun o member => absurd member List.not_mem_nil)
      (fun o => .inr) fun o waits => by tauto
    rw [List.append_nil]
    exact List.perm_append_comm
  have bases := bases_finds again.within inside
  obtain ⟨done, longer, empty⟩ := (again.marks bases.toMarks).propagateall
  have found (r : Ref) (member : r ∈ g.bases) := longer.found r.2 (bases.found r member)
  replace longer := bases.longer.trans longer
  have later : Later g g.remarkweak :=
    ⟨⟨longer.frame, longer.found, longer.tt⟩, longer.userdata, longer.gfasttm⟩
  refine ⟨done.fewer fun o _ waits => .inl (.inr ?_), empty, later, found⟩
  rw [later.frame]
  exact waits.imp_left (longer.grayagain o)

/-- The objects caught by barriers have been visited. -/
theorem Ongoing.remarkagain (ongoing : Ongoing R (fun o => o ∈ g.grayagain ∨ o ∈ g.tmudata) g)
    (empty : g.gray = []) :
    Ongoing R (fun o => o ∈ g.remarkagain.tmudata) g.remarkagain ∧ Later g g.remarkagain := by
  have again : Ongoing R (fun o => o ∈ g.tmudata)
      { g with gray := g.grayagain, grayagain := [] } :=
    ongoing.regray empty (List.Perm.refl _) (fun o => id) (fun o => .inl) fun o => Or.symm
  obtain ⟨done, longer, -⟩ := again.propagateall
  have later : Later g g.remarkagain :=
    ⟨⟨longer.frame, longer.found, longer.tt⟩, longer.userdata, longer.gfasttm⟩
  refine ⟨done.fewer fun o _ waits => .inl (.inr ?_), later⟩
  rw [later.frame]
  exact waits

/-- The userdata to be finalized have been visited. -/
theorem Ongoing.remarkudata (ongoing : Ongoing R (fun o => o ∈ g.tmudata) g)
    (inside : ∀ o ∈ g.tmudata, R o)
    (needed : ∀ o u, g.object o = some (.userdata u) →
      g.gfasttm u.metatable g.tmGc ≠ .nil → R o) :
    Ongoing R (fun _ => False) g.remarkudata ∧ g.remarkudata.gray = [] ∧
      (∀ o, g.iswhite o = false → g.remarkudata.iswhite o = false) ∧
      g.remarkudata.bases = g.bases ∧
      ∀ o ∈ g.remarkudata.tmudata, g.remarkudata.iswhite o = false := by
  obtain ⟨separate, separated⟩ := ongoing.luaCSeparateudata
  obtain ⟨preserved, later, found⟩ := separate.marktmu separated.old fun o member => by
    rcases separated.new o member with member | ⟨u, object, finalizer⟩
    · exact inside o member
    · exact needed o u object finalizer
  obtain ⟨done, longer, empty⟩ := preserved.propagateall
  replace later := later.trans longer.toLater
  refine ⟨done, empty, fun o found => later.found o ?_, ?_, fun o member => ?_⟩
  · rw [separated.white]
    exact found
  · rw [GlobalState.remarkudata, later.frame, separated.frame]
    rfl
  · rw [GlobalState.remarkudata, later.frame] at member
    exact longer.found o (found o member)

/-- The end of the marking: nothing waits any longer. -/
theorem Ongoing.remark (ongoing : Ongoing R g.waiting g) (inside : Inside R g g.roots)
    (needed : ∀ o u, g.object o = some (.userdata u) →
      g.gfasttm u.metatable g.tmGc ≠ .nil → R o) :
    Ongoing R (fun _ => False) g.remark ∧ g.remark.gray = [] ∧
      ∀ r ∈ g.remark.roots, g.remark.iswhite r.2 = false := by
  obtain ⟨first, empty, later⟩ := ongoing.remarkopen
  rw [GlobalState.remark]
  have bases : Inside R g.remarkopen g.remarkopen.bases := by
    intro r member
    have root := GlobalState.roots_of_bases member
    rw [later.roots] at root
    rw [later.tt]
    exact inside r root
  obtain ⟨second, empty, later₂, found⟩ := first.remarkweak empty bases
  replace later := later.trans later₂
  obtain ⟨third, later₃⟩ := second.remarkagain empty
  replace later := later.trans later₃
  have found₃ (r : Ref) (member : r ∈ g.remarkopen.bases) :=
    later₃.found r.2 (found r member)
  have bases₃ : g.remarkopen.remarkweak.remarkagain.bases = g.remarkopen.bases := by
    rw [later₃.frame, later₂.frame]
    rfl
  obtain ⟨done, empty, found₄, bases₄, found_tmudata⟩ := third.remarkudata (fun o member => by
    rw [later.frame] at member
    refine (inside (.userdata, o) ?_).1
    simp only [GlobalState.roots, List.mem_cons, List.mem_append, List.mem_map]
    exact .inr (.inr (.inr (.inr ⟨o, member, rfl⟩)))) fun o u object finalizer => by
      rw [later.gfasttm, later.frame] at finalizer
      exact needed o u (later.userdata o u object) finalizer
  generalize g.remarkopen.remarkweak.remarkagain.remarkudata = g' at *
  refine ⟨done, empty, fun r member => ?_⟩
  have base (member : r ∈ g'.bases) : g'.iswhite r.2 = false := by
    rw [bases₄, bases₃] at member
    exact found₄ r.2 (found₃ r member)
  simp only [GlobalState.bases, List.mem_cons] at base
  simp only [GlobalState.roots, List.mem_cons, List.mem_append, List.mem_map] at member
  rcases member with rfl | rfl | member | member | ⟨u, member, rfl⟩
  · exact done.marking.main
  · exact base (.inl rfl)
  · exact done.marking.registry r member
  · exact base (.inr member)
  · exact found_tmudata u member

/-- After the marking, the weak tables are to be cleared. -/
theorem Ongoing.clearing (ongoing : Ongoing R (fun _ => False) g) (empty : g.gray = []) :
    Clearing R g.weak g where
  formed := ongoing.formed
  alive := ongoing.marking.alive
  inside o x object found := .inl (ongoing.within.inside o x object found)
  closed o x object found := by
    have settled : ∀ r ∈ g.strong o, g.iswhite r.2 = false := by
      rcases ongoing.marking.covers o ((Bool.not_eq_true _).mpr found) with (gray | waits) | settled
      · rw [empty] at gray
        exact absurd gray List.not_mem_nil
      · exact waits.elim
      · exact fun r member => Bool.eq_false_of_not_eq_true (settled r.2 ⟨r.1, member⟩)
    have closed (strong : g.strong o = g.held o) : ∀ r ∈ g.refs o, g.iswhite r.2 = false :=
      fun r member => settled r (strong ▸ GlobalState.held_of_refs member)
    rw [GlobalState.strong, object] at closed settled
    cases x with
    | table h =>
        dsimp only at closed settled
        by_cases weak : o ∈ g.weak
        · rw [if_pos weak] at settled
          refine .inr ⟨weak, h, rfl, fun r member => settled r (List.mem_append_left _ member), ?_⟩
          intro bit r member
          refine settled r (List.mem_append_right _ ?_)
          obtain ⟨v, value, member⟩ := List.mem_flatMap.mp member
          refine List.mem_flatMap.mpr ⟨v, List.mem_append_left _ ?_, member⟩
          rw [bit]
          exact List.mem_reverse.mpr value
        · rw [if_neg weak] at closed
          exact .inl (closed rfl)
    | string s => exact .inl (closed rfl)
    | function cl => exact .inl (closed rfl)
    | userdata u => exact .inl (closed rfl)
    | thread th => exact .inl (closed rfl)
    | proto f => exact .inl (closed rfl)
    | upval uv => exact .inl (closed rfl)

/-- When the white changes, the white objects die. -/
theorem Clearing.flip (clearing : Clearing R [] g)
    (roots : ∀ r ∈ g.roots, g.iswhite r.2 = false) :
    g.flip.Formed ∧ g.flip.Sweeping ∧
      ∀ o x, g.object o = some x → g.flip.isdead o = g.iswhite o := by
  have dead (o : Addr) (x : GCObject) (object : g.object o = some x) :
      g.flip.isdead o = g.iswhite o :=
    clearing.formed.coloured.white.isdead_otherwhite (clearing.formed.coloured.each o x object).proper
      (clearing.alive o x object)
  have has (r : Ref) (has : g.Has r) (found : g.iswhite r.2 = false) : g.flip.Has r :=
    ⟨has.1, Marked.isdead_eq_false found⟩
  refine ⟨⟨⟨?_, ?_, ?_⟩, ?_, ?_, ?_, ?_, ?_, ⟨?_, ?_⟩⟩, ⟨?_, ?_, ?_, ?_, ?_, ?_⟩, dead⟩
  · exact clearing.formed.coloured.white.otherwhite
  · exact clearing.formed.coloured.each
  · exact clearing.formed.coloured.free
  · exact clearing.formed.rooted
  · exact clearing.formed.interned
  · exact clearing.formed.opened
  · exact clearing.formed.names
  · exact clearing.formed.fixed
  · intro o x object alive r member
    have found : g.iswhite o = false := (dead o x object).symm.trans alive
    have closed := (clearing.closed o x object found).resolve_right fun again =>
      absurd again.1 List.not_mem_nil
    exact has r (clearing.formed.sound.refs o x object (clearing.alive o x object) r member)
      (closed r member)
  · exact fun r member => has r (clearing.formed.sound.roots r member) (roots r member)
  · exact fun _ => rfl
  · intro _
    obtain ⟨k, size⟩ := clearing.formed.interned.size
    exact size ▸ Nat.two_pow_pos k
  · exact fun a cursor => by cases cursor
  · exact fun i o early _ => absurd (early rfl) (Nat.not_lt_zero i)
  · exact fun o member outside => absurd member outside
  · intro o member
    refine Marked.isdead_eq_false (roots (.userdata, o) ?_)
    simp only [GlobalState.roots, List.mem_cons, List.mem_append, List.mem_map]
    exact .inr (.inr (.inr (.inr ⟨o, member, rfl⟩)))

/-- The atomic step makes exactly those objects dead that the marking has not found. -/
theorem Ongoing.atomic (ongoing : Ongoing R g.waiting g) (inside : Inside R g g.roots)
    (needed : ∀ o u, g.object o = some (.userdata u) →
      g.gfasttm u.metatable g.tmGc ≠ .nil → R o) :
    g.atomic.Formed ∧ g.atomic.Sweeping ∧
      ∀ o x, g.atomic.object o = some x → g.atomic.isdead o = false →
        R o ∨ g.atomic.tt o = some .string := by
  obtain ⟨remarked, empty, roots⟩ := ongoing.remark inside needed
  obtain ⟨clearing, found⟩ := (remarked.clearing empty).cleartable
  rw [GlobalState.atomic]
  generalize g.remark.cleartable g.remark.weak = g' at clearing found ⊢
  obtain ⟨formed, sweeping, dead⟩ := clearing.flip fun r member => by
    rw [found.roots] at member
    exact found.found r.2 (roots r member)
  refine ⟨formed, sweeping, fun o x object alive => ?_⟩
  exact clearing.inside o x object ((dead o x object).symm.trans alive)

end Atomic

end LuaScript.GC
