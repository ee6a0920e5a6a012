import LuaScript.Lib.Links

/-!
# Chained scatter tables

Hash tables whose colliding keys are chained through the nodes of the table itself.  Brent's
variation keeps a table settled: a key away from its home shares the home with a key that belongs
there, since a key that finds a stranger in its home drives it out.
-/

namespace Links

open Function

/-- Nodes with keys and links; a dead key is there for its link alone. -/
structure Scatter (ι κ : Type*) where
  /-- The key of a node. -/
  key : ι → Option κ
  /-- The key counts no more. -/
  dead : ι → Bool
  /-- The next node of the chain. -/
  next : ι → Option ι

namespace Scatter

variable {ι κ : Type*}

/-- Every key lies on the chain from its home, behind a key that is at home there. -/
structure Chained (home : κ → ι) (s : Scatter ι κ) : Prop where
  /-- The chains are paths. -/
  paths : Paths s.next
  /-- Free nodes are on no chain. -/
  keyed : ∀ a b, Linked s.next a b → s.key a ≠ none ∧ s.key b ≠ none
  /-- A key is found from its home. -/
  reached : ∀ a k, s.key a = some k → Reaches s.next (home k) a
  /-- The key in a home is at home. -/
  settled : ∀ a k, s.key a = some k → ∃ k', s.key (home k) = some k' ∧ home k' = home k
  /-- A live key comes before dead copies of it, and has no live ones. -/
  first : ∀ a b k, s.key a = some k → s.dead a = false → s.key b = some k → Reaches s.next a b

/-- A table without keys. -/
def empty : Scatter ι κ where
  key _ := none
  dead _ := false
  next _ := none

/-- Without keys nothing is chained. -/
theorem chained_empty (home : κ → ι) : (empty : Scatter ι κ).Chained home where
  paths := by
    refine ⟨fun a b c first => ?_, fun a steps => ?_⟩
    · cases first
    · obtain ⟨b, link, -⟩ := Relation.TransGen.head'_iff.mp steps
      cases link
  keyed a b link := by cases link
  reached a k held := by cases held
  settled a k held := by cases held
  first a b k held := by cases held

section Chained

variable {home : κ → ι} {s : Scatter ι κ}

/-- A key is live at one node only. -/
theorem Chained.unique (chained : s.Chained home) {a b : ι} {k : κ} (at_a : s.key a = some k)
    (live_a : s.dead a = false) (at_b : s.key b = some k) (live_b : s.dead b = false) : a = b :=
  chained.paths.antisymm (chained.first a b k at_a live_a at_b)
    (chained.first b a k at_b live_b at_a)

theorem Chained.next_of_free (chained : s.Chained home) {n : ι} (free : s.key n = none) :
    s.next n = none := by
  by_contra linked
  obtain ⟨b, link⟩ := Option.ne_none_iff_exists'.mp linked
  exact (chained.keyed n b link).1 free

theorem Chained.not_linked_of_free (chained : s.Chained home) {n : ι} (free : s.key n = none)
    (a : ι) : ¬Linked s.next a n :=
  fun link => (chained.keyed a n link).2 free

/-- No key has its home in a free node. -/
theorem Chained.home_ne_of_free (chained : s.Chained home) {n a : ι} {k : κ}
    (free : s.key n = none) (held : s.key a = some k) : home k ≠ n := by
  rintro rfl
  obtain ⟨k', there, -⟩ := chained.settled a k held
  rw [free] at there
  cases there

/-- No key has its home in a node that another key took away from its home. -/
theorem Chained.home_ne_of_stranger (chained : s.Chained home) {m a : ι} {k k' : κ}
    (taken : s.key m = some k') (stranger : home k' ≠ m) (held : s.key a = some k) :
    home k ≠ m := by
  rintro rfl
  obtain ⟨k'', there, at_home⟩ := chained.settled a k held
  obtain rfl := Option.some.inj (taken.symm.trans there)
  exact stranger at_home

/-- Keys may die at any time. -/
theorem Chained.of_dead (chained : s.Chained home) {dead : ι → Bool}
    (dies : ∀ a, dead a = false → s.dead a = false) :
    ({ s with dead } : Scatter ι κ).Chained home where
  paths := chained.paths
  keyed := chained.keyed
  reached := chained.reached
  settled := chained.settled
  first a b k at_a live at_b := chained.first a b k at_a (dies a live) at_b

end Chained

/-! ## Search -/

section Search

variable {home : κ → ι} {s : Scatter ι κ} {nodes : Finset ι} {fuel : Nat} {p : ι → Bool} {k : κ}

/-- What is reached from the home of a key is a node. -/
private theorem Chained.inside (chained : s.Chained home) (held : ∀ a, s.key a ≠ none → a ∈ nodes)
    (start : home k ∈ nodes) (c : ι) (reaches : Reaches s.next (home k) c) : c ∈ nodes := by
  rcases Relation.ReflTransGen.cases_tail reaches with rfl | ⟨b, -, link⟩
  · exact start
  · exact held c (chained.keyed b c link).2

/-- Looking for a live key along the chain of its home finds the node of the key. -/
theorem Chained.search_eq_some_iff (chained : s.Chained home)
    (held : ∀ a, s.key a ≠ none → a ∈ nodes) (enough : nodes.card ≤ fuel) (start : home k ∈ nodes)
    (matching : ∀ a, p a = true ↔ s.key a = some k ∧ s.dead a = false) (a : ι) :
    search s.next p fuel (home k) = some a ↔ s.key a = some k ∧ s.dead a = false := by
  constructor
  · intro found
    exact (matching a).mp (search_eq_some found).2.1
  · rintro ⟨at_a, live⟩
    have present := chained.paths.search_isSome (chained.inside held start) enough
      (chained.reached a k at_a) ((matching a).mpr ⟨at_a, live⟩)
    obtain ⟨b, found⟩ := Option.isSome_iff_exists.mp present
    obtain ⟨at_b, live_b⟩ := (matching b).mp (search_eq_some found).2.1
    rw [found, chained.unique at_a live at_b live_b]

/-- Looking for a key, dead or alive, finds the live one. -/
theorem Chained.search_eq_some_of_live (chained : s.Chained home)
    (held : ∀ a, s.key a ≠ none → a ∈ nodes) (enough : nodes.card ≤ fuel) (start : home k ∈ nodes)
    (sound : ∀ a, p a = true → s.key a = some k) {a : ι} (at_a : s.key a = some k)
    (live : s.dead a = false) (here : p a = true) :
    search s.next p fuel (home k) = some a := by
  have present := chained.paths.search_isSome (chained.inside held start) enough
    (chained.reached a k at_a) here
  obtain ⟨b, found⟩ := Option.isSome_iff_exists.mp present
  obtain ⟨-, there, before⟩ := search_eq_some found
  have forth := chained.first a b k at_a live (sound b there)
  have back := before a (chained.reached a k at_a) here
  rw [found, chained.paths.antisymm back forth]

/-- A stranger has a node before it on its chain. -/
theorem Chained.search_previous (chained : s.Chained home) [DecidableEq ι]
    (held : ∀ a, s.key a ≠ none → a ∈ nodes) (enough : nodes.card ≤ fuel) (start : home k ∈ nodes)
    {m : ι} (taken : s.key m = some k) (stranger : home k ≠ m) :
    ∃ o, search s.next (fun a => decide (s.next a = some m)) fuel (home k) = some o ∧
      s.next o = some m := by
  rcases Relation.ReflTransGen.cases_tail (chained.reached m k taken) with same | ⟨o, reaches, link⟩
  · exact absurd same.symm stranger
  · have present := chained.paths.search_isSome (p := fun a => decide (s.next a = some m))
      (chained.inside held start) enough reaches (decide_eq_true link)
    obtain ⟨o', found⟩ := Option.isSome_iff_exists.mp present
    exact ⟨o', found, of_decide_eq_true (search_eq_some found).2.1⟩

end Search

/-! ## Insertion -/

section Insert

variable [DecidableEq ι]

/-- Write a key over what a node holds. -/
def replace (s : Scatter ι κ) (m : ι) (k : κ) : Scatter ι κ where
  key := update s.key m (some k)
  dead := update s.dead m false
  next := s.next

/-- Chain a key behind a node. -/
def append (s : Scatter ι κ) (m n : ι) (k : κ) : Scatter ι κ where
  key := update s.key n (some k)
  dead := update s.dead n false
  next := insertAfter s.next m n

section Fields

variable (s : Scatter ι κ) (m n : ι) (k : κ) (a : ι)

theorem key_replace : (s.replace m k).key a = if a = m then some k else s.key a :=
  update_apply ..

theorem dead_replace : (s.replace m k).dead a = if a = m then false else s.dead a :=
  update_apply ..

theorem key_append : (s.append m n k).key a = if a = n then some k else s.key a :=
  update_apply ..

theorem dead_append : (s.append m n k).dead a = if a = n then false else s.dead a :=
  update_apply ..

end Fields

/-- Exchange two nodes. -/
def exchange (s : Scatter ι κ) (m n : ι) : Scatter ι κ where
  key := s.key ∘ Equiv.swap m n
  dead := s.dead ∘ Equiv.swap m n
  next := Links.exchange s.next m n

variable {home : κ → ι} {s : Scatter ι κ} {m n : ι} {k : κ}

/-- A new key may take its home if no key is alive there. -/
theorem Chained.replace (chained : s.Chained home) (at_home : home k = m)
    (fresh : ∀ a, s.key a = some k → s.dead a = true) : (s.replace m k).Chained home where
  paths := chained.paths
  keyed a b link := by
    have both := chained.keyed a b link
    rw [key_replace, key_replace]
    constructor
    · split_ifs
      · simp
      · exact both.1
    · split_ifs
      · simp
      · exact both.2
  reached a k' held := by
    rw [key_replace] at held
    split_ifs at held with same
    · obtain rfl := Option.some.inj held
      rw [at_home, same]
      exact .refl
    · exact chained.reached a k' held
  settled a k' held := by
    rw [key_replace] at held
    simp only [key_replace]
    by_cases here : home k' = m
    · exact ⟨k, if_pos here, at_home.trans here.symm⟩
    · rw [if_neg here]
      split_ifs at held with same
      · obtain rfl := Option.some.inj held
        exact absurd at_home here
      · exact chained.settled a k' held
  first a b k' at_a live at_b := by
    simp only [key_replace, dead_replace] at at_a live at_b
    split_ifs at at_a live at_b with same_a same_b same_b
    · rw [same_a, same_b]
      exact .refl
    · obtain rfl := Option.some.inj at_a
      rw [same_a, ← at_home]
      exact chained.reached b k at_b
    · obtain rfl := Option.some.inj at_b
      rw [fresh a at_a] at live
      cases live
    · exact chained.first a b k' at_a live at_b

/-- A new key whose home is taken by a key at home goes behind it into a free node. -/
theorem Chained.append (chained : s.Chained home) (at_home : home k = m) {k' : κ}
    (taken : s.key m = some k') (alive : s.dead m = false) (own : home k' = m)
    (free : s.key n = none) (fresh : ∀ a, s.key a = some k → s.dead a = true) :
    (s.append m n k).Chained home := by
  have different : m ≠ n := by
    rintro rfl
    rw [free] at taken
    cases taken
  have other : k' ≠ k := by
    rintro rfl
    rw [fresh m taken] at alive
    cases alive
  have unlinked := chained.next_of_free free
  refine
    { paths := chained.paths.insertAfter different (chained.not_linked_of_free free)
      keyed := fun a b link => ?_
      reached := fun a k'' held => ?_
      settled := fun a k'' held => ?_
      first := fun a b k'' at_a live at_b => ?_ }
  · rw [key_append, key_append]
    rcases linked_insertAfter.mp link with ⟨rfl, old⟩ | ⟨not_n, rfl, rfl⟩ | ⟨not_n, -, old⟩
    · refine ⟨by simp, ?_⟩
      split_ifs
      · simp
      · exact (chained.keyed _ b old).2
    · rw [if_neg not_n, if_pos rfl, taken]
      exact ⟨by simp, by simp⟩
    · rw [if_neg not_n]
      refine ⟨(chained.keyed a b old).1, ?_⟩
      split_ifs
      · simp
      · exact (chained.keyed a b old).2
  · rw [key_append] at held
    split_ifs at held with same
    · obtain rfl := Option.some.inj held
      rw [same, at_home]
      exact reaches_inserted different
    · exact (chained.reached a k'' held).insertAfter different unlinked
  · rw [key_append] at held
    simp only [key_append]
    split_ifs at held with same
    · obtain rfl := Option.some.inj held
      rw [at_home, if_neg different]
      exact ⟨k', taken, own⟩
    · rw [if_neg (chained.home_ne_of_free free held)]
      exact chained.settled a k'' held
  · simp only [key_append, dead_append] at at_a live at_b
    split_ifs at at_a live at_b with same_a same_b same_b
    · rw [same_a, same_b]
      exact .refl
    · obtain rfl := Option.some.inj at_a
      have not_m : b ≠ m := by
        rintro rfl
        exact other (Option.some.inj (taken.symm.trans at_b))
      rw [same_a]
      refine Reaches.from_inserted different unlinked ?_ not_m
      rw [← at_home]
      exact chained.reached b k at_b
    · obtain rfl := Option.some.inj at_b
      rw [fresh a at_a] at live
      cases live
    · exact (chained.first a b k'' at_a live at_b).insertAfter different unlinked

/-- Two nodes which are home to no key may be exchanged. -/
theorem Chained.exchange (chained : s.Chained home)
    (homeless : ∀ a k, s.key a = some k → home k ≠ m ∧ home k ≠ n) :
    (s.exchange m n).Chained home := by
  have fixed {a : ι} {k : κ} (held : s.key a = some k) : Equiv.swap m n (home k) = home k :=
    Equiv.swap_apply_of_ne_of_ne (homeless a k held).1 (homeless a k held).2
  refine
    { paths := chained.paths.exchange
      keyed := fun a b link => chained.keyed _ _ (linked_exchange.mp link)
      reached := fun a k held => ?_
      settled := fun a k held => ?_
      first := fun a b k at_a live at_b => ?_ }
  · have moved := (chained.reached _ k held).exchange (m := m) (n := n)
    rwa [fixed held, Equiv.swap_apply_self] at moved
  · obtain ⟨k', there, at_home⟩ := chained.settled _ k held
    refine ⟨k', ?_, at_home⟩
    simp only [Scatter.exchange, Function.comp_apply, fixed held]
    exact there
  · have moved := (chained.first _ _ k at_a live at_b).exchange (m := m) (n := n)
    rwa [Equiv.swap_apply_self, Equiv.swap_apply_self] at moved

/-- A key that found its home taken by a stranger drives the stranger into a free node. -/
theorem Chained.evict (chained : s.Chained home) (at_home : home k = m) {k' : κ}
    (taken : s.key m = some k') (stranger : home k' ≠ m) (free : s.key n = none)
    (fresh : ∀ a, s.key a = some k → s.dead a = true) :
    ((s.exchange m n).replace m k).Chained home := by
  refine (chained.exchange fun a k held => ?_).replace at_home fun a held => fresh _ held
  exact ⟨chained.home_ne_of_stranger taken stranger held, chained.home_ne_of_free free held⟩

end Insert

end Scatter

end Links
