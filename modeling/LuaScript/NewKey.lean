import LuaScript.TableChains

/-!
# New keys

A new key goes to its main position, behind a key that is at home there, or in the place of a key
that is not, which moves to a free node.  The table stays valid and every value as it was; a table
is rehashed only when all of its nodes are in use.
-/

namespace LuaScript

open Links Function

namespace Table

/-- The number of nodes with a key. -/
def used (t : Table) : Nat :=
  ((Finset.range t.sizenode).filter fun i => (t.gnode i).key ≠ .nil).card

/-- A new key has got a slot without moving the table. -/
structure Placed (layout : Layout) (t t' : Table) (key : Value) (slot : Slot) : Prop where
  valid : t'.Valid layout
  holds : t'.Holds key slot
  get : t'.get layout = t.get layout
  array : t'.array = t.array
  lsizenode : t'.lsizenode = t.lsizenode
  dummy : t'.dummy = t.dummy
  used : t'.used ≤ t.used + 1

section Newkey

variable {layout : Layout} {t t' : Table} {key : Value}

/-- What a new key needs to have been placed in the node `x`, when the others were permuted. -/
private theorem Valid.placed (valid : t.Valid layout) (some_key : key ≠ .nil)
    (absent : ∀ slot, ¬t.Holds key slot) (live : t.dummy = false) {σ : Equiv.Perm Nat} {x : Nat}
    (frame : t'.array = t.array ∧ t'.lsizenode = t.lsizenode ∧ t'.dummy = t.dummy ∧
      t'.node.length = t.node.length)
    (moved : ∀ i, i ≠ x → (t'.gnode i).key = (t.gnode (σ i)).key ∧
      (t'.gnode i).val = (t.gnode (σ i)).val ∧ (t'.gnode i).dead = (t.gnode (σ i)).dead)
    (before : (t.gnode (σ x)).val = .nil) (after : (t'.gnode x).val = .nil)
    (here : (t'.gnode x).key = key) (alive : (t'.gnode x).dead = false)
    (chained : t'.scatter.Chained (t.mainposition layout))
    (lastfree_le : t'.lastfree ≤ t.sizenode)
    (free : ∀ i, t'.lastfree ≤ i → i < t.sizenode → (t'.gnode i).key ≠ .nil) :
    Placed layout t t' key (.node x) := by
  obtain ⟨array, lsizenode, dummy, length⟩ := frame
  have size : t'.sizenode = t.sizenode := congrArg (2 ^ ·) lsizenode
  have valid' : t'.Valid layout :=
    { nodes := length.trans (valid.nodes.trans size.symm)
      nodes_le := size ▸ valid.nodes_le
      elements := array ▸ valid.elements
      chained := by
        rw [mainposition_congr lsizenode]
        exact chained
      empty := fun wrong => by
        rw [dummy, live] at wrong
        cases wrong
      lastfree_le := size ▸ lastfree_le
      free := fun _ i low high => free i low (size ▸ high)
      valued := fun i some_value => by
        by_cases at_x : i = x
        · exact absurd after (at_x ▸ some_value)
        · obtain ⟨key_eq, val_eq, dead_eq⟩ := moved i at_x
          rw [key_eq, dead_eq]
          exact valid.valued _ (val_eq ▸ some_value)
      buried := fun i dead => by
        by_cases at_x : i = x
        · rw [at_x, alive] at dead
          cases dead
        · obtain ⟨key_eq, -, dead_eq⟩ := moved i at_x
          rw [key_eq]
          exact valid.buried _ (dead_eq ▸ dead)
      outside := fun i held => by
        by_cases at_x : i = x
        · rw [at_x, here, array]
          rintro ⟨low, high⟩
          obtain ⟨k, index⟩ : ∃ k : Nat, arrayindex key = k + 1 :=
            ⟨(arrayindex key - 1).toNat, by omega⟩
          have same := (arrayindex_eq_iff (by omega)).mp index
          refine absent (.array k) ⟨by omega, ?_⟩
          rw [same.1]
          push_cast
          rfl
        · obtain ⟨key_eq, -⟩ := moved i at_x
          rw [key_eq] at held ⊢
          rw [array]
          exact valid.outside _ held }
  refine
    { valid := valid'
      holds := ⟨some_key, here, alive⟩
      get := valid.get_congr valid' fun key' value => ?_
      array, lsizenode, dummy
      used := ?_ }
  · constructor
    · rintro ⟨some_value, slot, held, rfl⟩
      refine ⟨some_value, ?_⟩
      cases slot with
      | array i =>
          refine ⟨.array i, ?_, ?_⟩
          · rw [Holds, ← array]
            exact held
          · rw [read, read, array]
      | node i =>
          by_cases at_x : i = x
          · exact absurd after (at_x ▸ some_value)
          · obtain ⟨key_eq, val_eq, dead_eq⟩ := moved i at_x
            exact ⟨.node (σ i), ⟨held.1, key_eq ▸ held.2.1, dead_eq ▸ held.2.2⟩, val_eq.symm⟩
    · rintro ⟨some_value, slot, held, rfl⟩
      refine ⟨some_value, ?_⟩
      cases slot with
      | array i =>
          refine ⟨.array i, ?_, ?_⟩
          · rw [Holds, array]
            exact held
          · rw [read, read, array]
      | node i =>
          have not_x : σ.symm i ≠ x := by
            rintro rfl
            rw [Equiv.apply_symm_apply] at before
            exact some_value before
          obtain ⟨key_eq, val_eq, dead_eq⟩ := moved _ not_x
          rw [Equiv.apply_symm_apply] at key_eq val_eq dead_eq
          exact ⟨.node (σ.symm i), ⟨held.1, key_eq.trans held.2.1, dead_eq.trans held.2.2⟩, val_eq⟩
  · rw [Table.used, Table.used, size]
    refine (Finset.card_le_card (t := insert x (((Finset.range t.sizenode).filter fun i =>
      (t.gnode i).key ≠ .nil).image σ.symm)) fun i member => ?_).trans
        ((Finset.card_insert_le _ _).trans (Nat.add_le_add_right Finset.card_image_le 1))
    obtain ⟨bound, held⟩ := Finset.mem_filter.mp member
    rw [Finset.mem_insert]
    refine Classical.or_iff_not_imp_left.mpr fun not_x => ?_
    rw [(moved i not_x).1] at held
    refine Finset.mem_image.mpr ⟨σ i, Finset.mem_filter.mpr ⟨?_, held⟩, σ.symm_apply_apply i⟩
    exact Finset.mem_range.mpr (valid.node_lt held)

/-- A key that was not found is new. -/
private theorem fresh_of_absent (absent : ∀ slot, ¬t.Holds key slot) (i : Nat)
    (held : t.scatter.key i = some key) : t.scatter.dead i = true := by
  obtain ⟨some_key, here⟩ := scatter_key_eq_some.mp held
  by_contra live
  exact absent (.node i) ⟨some_key, here, Bool.not_eq_true _ ▸ live⟩

/-- A node whose value is `nil` takes the key. -/
theorem Valid.placed_put (valid : t.Valid layout) (some_key : key ≠ .nil)
    (absent : ∀ slot, ¬t.Holds key slot) (live : t.dummy = false)
    (empty : (t.gnode (t.mainposition layout key)).val = .nil) :
    Placed layout t (t.putKey (t.mainposition layout key) key) key
      (.node (t.mainposition layout key)) := by
  have bound : t.mainposition layout key < t.node.length := valid.nodes ▸ mainposition_lt key
  set mp := t.mainposition layout key with home
  have nodes : (t.putKey mp key).gnode =
      update t.gnode mp { t.gnode mp with key := key, dead := false } := gnode_setNode bound _
  have scattered : (t.putKey mp key).scatter = t.scatter.replace mp key := by
    refine scatter_eq (fun i => ?_) (fun i => ?_) fun i => ?_
    · rw [Scatter.key_replace, scatter_key, scatter_key, nodes, update_apply]
      split_ifs
      all_goals simp_all
    · rw [Scatter.dead_replace, scatter_dead, scatter_dead, nodes, update_apply]
      split_ifs
      all_goals rfl
    · rw [Scatter.replace, scatter_next, scatter_next, nodes, update_apply]
      split_ifs with at_mp
      · rw [at_mp]
      · rfl
  refine valid.placed some_key absent live (σ := Equiv.refl Nat)
    ⟨rfl, rfl, rfl, t.length_node_setNode mp _⟩ (fun i other => ?_) empty ?_ ?_ ?_ ?_
    valid.lastfree_le fun i low high => ?_
  · rw [nodes, update_of_ne other]
    exact ⟨rfl, rfl, rfl⟩
  · rw [nodes, update_self]
    exact empty
  · rw [nodes, update_self]
  · rw [nodes, update_self]
  · rw [scattered]
    exact valid.chained.replace home.symm (fresh_of_absent absent)
  · rw [nodes, update_apply]
    split_ifs
    · exact some_key
    · exact valid.free live i low high

section Free

variable {n : Nat}

theorem freeBelow_eq_some {b : Nat} (found : t.freeBelow b = some n) :
    n < b ∧ (t.gnode n).key = .nil ∧ ∀ i, n < i → i < b → (t.gnode i).key ≠ .nil := by
  induction b with
  | zero => cases found
  | succ b induction =>
      rw [freeBelow] at found
      split_ifs at found with free
      · obtain rfl := Option.some.inj found
        exact ⟨b.lt_succ_self, free, fun i low high => by omega⟩
      · obtain ⟨below, free_n, above⟩ := induction found
        refine ⟨by omega, free_n, fun i low high => ?_⟩
        rcases Nat.lt_succ_iff_lt_or_eq.mp high with lower | rfl
        · exact above i low lower
        · exact free

theorem freeBelow_eq_none {b : Nat} (missed : t.freeBelow b = none) :
    ∀ i < b, (t.gnode i).key ≠ .nil := by
  induction b with
  | zero =>
      intro i wrong
      omega
  | succ b induction =>
      rw [freeBelow] at missed
      split_ifs at missed with free
      intro i high
      rcases Nat.lt_succ_iff_lt_or_eq.mp high with lower | rfl
      · exact induction missed i lower
      · exact free

/-- Behind the free node that `getfreepos` returns, no node is free. -/
private theorem Valid.free_of_freeBelow (valid : t.Valid layout) (live : t.dummy = false)
    (found : t.freeBelow t.lastfree = some n) (i : Nat) (low : n < i) (high : i < t.sizenode) :
    (t.gnode i).key ≠ .nil := by
  rcases Nat.lt_or_ge i t.lastfree with below | beyond
  · exact (freeBelow_eq_some found).2.2 i low below
  · exact valid.free live i beyond high

/-- The nodes after the free node `n` was chained behind `mp`. -/
theorem gnode_chain {mp : Nat} (bound : mp < t.node.length) (bound_n : n < t.node.length)
    (different : mp ≠ n) (i : Nat) : ((t.chainNode mp n).putKey n key).gnode i =
      if i = n then { val := (t.gnode n).val, key := key, dead := false, next := t.next mp }
      else if i = mp then { t.gnode mp with next := some n }
      else t.gnode i := by
  rw [putKey, gnode_setNode (by simpa [chainNode] using bound_n), chainNode,
    gnode_setNode (by simpa using bound), gnode_setNode bound_n]
  simp only [update_apply, if_neg different, if_neg different.symm, if_true]
  split_ifs
  all_goals rfl

/-- The nodes after the node `mp`, linked from `o`, moved into the free node `n`. -/
theorem gnode_move {mp o : Nat} (bound : mp < t.node.length) (bound_n : n < t.node.length)
    (bound_o : o < t.node.length) (different : mp ≠ n) (not_mp : o ≠ mp) (i : Nat) :
    ((t.moveNode mp n o).putKey mp key).gnode i =
      if i = mp then { val := .nil, key := key, dead := false, next := none }
      else if i = n then t.gnode mp
      else if i = o then { t.gnode o with next := some n }
      else t.gnode i := by
  rw [putKey, gnode_setNode (by simpa [moveNode] using bound), moveNode,
    gnode_setNode (by simpa using bound), gnode_setNode (by simpa using bound_n),
    gnode_setNode bound_o]
  simp only [update_apply, if_neg different, if_neg not_mp.symm, if_true]
  split_ifs
  all_goals rfl

/-- The key goes behind a key that is at home. -/
theorem Valid.placed_chain (valid : t.Valid layout) (some_key : key ≠ .nil)
    (absent : ∀ slot, ¬t.Holds key slot) (live : t.dummy = false)
    (taken : (t.gnode (t.mainposition layout key)).val ≠ .nil)
    (own : t.mainposition layout (t.gnode (t.mainposition layout key)).key =
      t.mainposition layout key)
    (found : t.freeBelow t.lastfree = some n) :
    Placed layout t
      (({ t with lastfree := n }.chainNode (t.mainposition layout key) n).putKey n key) key
      (.node n) := by
  have bound : t.mainposition layout key < t.node.length := valid.nodes ▸ mainposition_lt key
  set mp := t.mainposition layout key with home
  obtain ⟨below, free, -⟩ := freeBelow_eq_some found
  have le := valid.lastfree_le
  have bound_n : n < t.node.length := by
    rw [valid.nodes]
    omega
  obtain ⟨key_mp, dead_mp⟩ := valid.valued mp taken
  have different : mp ≠ n := by
    rintro same
    exact key_mp (same ▸ free)
  set t' := ({ t with lastfree := n }.chainNode mp n).putKey n key with after
  have nodes (i : Nat) : t'.gnode i =
      if i = n then { val := (t.gnode n).val, key := key, dead := false, next := t.next mp }
      else if i = mp then { t.gnode mp with next := some n }
      else t.gnode i :=
    gnode_chain (t := { t with lastfree := n }) bound bound_n different i
  have scattered : t'.scatter = t.scatter.append mp n key := by
    refine scatter_eq (fun i => ?_) (fun i => ?_) fun i => ?_
    · rw [Scatter.key_append, scatter_key, scatter_key, nodes]
      split_ifs
      all_goals simp_all
    · rw [Scatter.dead_append, scatter_dead, scatter_dead, nodes]
      split_ifs
      all_goals simp_all
    · rw [Scatter.append, scatter_next, nodes]
      simp only [insertAfter]
      split_ifs
      all_goals rfl
  refine valid.placed some_key absent live (σ := Equiv.refl Nat)
    ⟨rfl, rfl, rfl, by simp [after, chainNode, putKey]⟩ (fun i other => ?_)
    (valid.val_of_free free) ?_ ?_ ?_ ?_ (show n ≤ t.sizenode by omega) fun i low high => ?_
  · rw [nodes, if_neg other]
    split_ifs with at_mp
    · rw [at_mp]
      exact ⟨rfl, rfl, rfl⟩
    · exact ⟨rfl, rfl, rfl⟩
  · rw [nodes, if_pos rfl]
    exact valid.val_of_free free
  · rw [nodes, if_pos rfl]
  · rw [nodes, if_pos rfl]
  · rw [scattered]
    exact valid.chained.append home.symm (scatter_key_eq_some.mpr ⟨key_mp, rfl⟩) dead_mp own
      (scatter_key_eq_none.mpr free) (fresh_of_absent absent)
  · rw [nodes]
    split_ifs with at_n at_mp
    · exact some_key
    · exact key_mp
    · exact valid.free_of_freeBelow live found i (lt_of_le_of_ne low (Ne.symm at_n)) high

/-- The key drives out a key that is away from home. -/
theorem Valid.placed_move (valid : t.Valid layout) (some_key : key ≠ .nil)
    (absent : ∀ slot, ¬t.Holds key slot) (live : t.dummy = false)
    (taken : (t.gnode (t.mainposition layout key)).val ≠ .nil)
    (stranger : t.mainposition layout (t.gnode (t.mainposition layout key)).key ≠
      t.mainposition layout key)
    (found : t.freeBelow t.lastfree = some n) {o : Nat}
    (link : t.next o = some (t.mainposition layout key)) :
    Placed layout t
      (({ t with lastfree := n }.moveNode (t.mainposition layout key) n o).putKey
        (t.mainposition layout key) key) key
      (.node (t.mainposition layout key)) := by
  have bound : t.mainposition layout key < t.node.length := valid.nodes ▸ mainposition_lt key
  set mp := t.mainposition layout key with home
  obtain ⟨below, free, -⟩ := freeBelow_eq_some found
  have le := valid.lastfree_le
  have bound_n : n < t.node.length := by
    rw [valid.nodes]
    omega
  have free' : t.scatter.key n = none := scatter_key_eq_none.mpr free
  obtain ⟨key_mp, dead_mp⟩ := valid.valued mp taken
  have different : mp ≠ n := by
    rintro same
    exact key_mp (same ▸ free)
  have not_mp : o ≠ mp := by
    intro same
    rw [same] at link
    exact valid.chained.paths.acyclic mp (.single link)
  have not_n : o ≠ n := by
    rintro rfl
    exact (valid.chained.keyed o mp link).1 free'
  have bound_o : o < t.node.length := by
    rw [valid.nodes]
    exact Finset.mem_range.mp (valid.node_of_key o (valid.chained.keyed o mp link).1)
  set t' := ({ t with lastfree := n }.moveNode mp n o).putKey mp key with after
  have nodes (i : Nat) : t'.gnode i =
      if i = mp then { val := .nil, key := key, dead := false, next := none }
      else if i = n then t.gnode mp
      else if i = o then { t.gnode o with next := some n }
      else t.gnode i :=
    gnode_move (t := { t with lastfree := n }) bound bound_n bound_o different not_mp i
  have exchanged := valid.chained.paths.exchange_eq_update link
    (valid.chained.next_of_free free') (valid.chained.not_linked_of_free free')
  have scattered : t'.scatter = (t.scatter.exchange mp n).replace mp key := by
    refine scatter_eq (fun i => ?_) (fun i => ?_) fun i => ?_
    · rw [Scatter.key_replace, scatter_key, nodes]
      simp only [Scatter.exchange, comp_apply, scatter_key]
      split_ifs
      all_goals simp_all [Equiv.swap_apply_of_ne_of_ne]
    · rw [Scatter.dead_replace, scatter_dead, nodes]
      simp only [Scatter.exchange, comp_apply, scatter_dead]
      split_ifs
      all_goals simp_all [Equiv.swap_apply_of_ne_of_ne]
    · rw [Scatter.replace, Scatter.exchange, scatter_next, nodes]
      simp only [exchanged, update_apply]
      split_ifs
      all_goals rfl
  refine valid.placed some_key absent live (σ := Equiv.swap mp n)
    ⟨rfl, rfl, rfl, by simp [after, moveNode, putKey]⟩ (fun i other => ?_) ?_ ?_ ?_ ?_ ?_
    (show n ≤ t.sizenode by omega) fun i low high => ?_
  · rw [nodes, if_neg other]
    split_ifs with at_n at_o
    · rw [at_n, Equiv.swap_apply_right]
      exact ⟨rfl, rfl, rfl⟩
    · rw [Equiv.swap_apply_of_ne_of_ne other at_n, at_o]
      exact ⟨rfl, rfl, rfl⟩
    · rw [Equiv.swap_apply_of_ne_of_ne other at_n]
      exact ⟨rfl, rfl, rfl⟩
  · rw [Equiv.swap_apply_left]
    exact valid.val_of_free free
  · rw [nodes, if_pos rfl]
  · rw [nodes, if_pos rfl]
  · rw [nodes, if_pos rfl]
  · rw [scattered]
    exact valid.chained.evict home.symm (scatter_key_eq_some.mpr ⟨key_mp, rfl⟩) stranger free'
      (fresh_of_absent absent)
  · rw [nodes]
    split_ifs with at_mp at_n at_o
    · exact some_key
    · exact key_mp
    · exact at_o ▸ valid.free_of_freeBelow live found i (lt_of_le_of_ne low (Ne.symm at_n)) high
    · exact valid.free_of_freeBelow live found i (lt_of_le_of_ne low (Ne.symm at_n)) high

end Free

variable (again : Table → Value → Except TableError (Table × Slot))

/-- The table of a search that found no free node. -/
theorem Valid.full (valid : t.Valid layout) (live : t.dummy = false)
    (missed : t.freeBelow t.lastfree = none) : t.used = t.sizenode := by
  rw [used, Finset.filter_true_of_mem, Finset.card_range]
  intro i member
  rcases Nat.lt_or_ge i t.lastfree with below | beyond
  · exact freeBelow_eq_none missed i below
  · exact valid.free live i beyond (Finset.mem_range.mp member)

/-- `newkey` finds a place for a key, or calls `rehash` because every node is in use. -/
theorem Valid.newkeyWith_cases (valid : t.Valid layout) (some_key : key ≠ .nil)
    (absent : ∀ slot, ¬t.Holds key slot) :
    (∃ t' slot, newkeyWith layout again t key = .ok (t', slot) ∧ Placed layout t t' key slot) ∨
      ((t.dummy = true ∨ t.used = t.sizenode) ∧
        newkeyWith layout again t key = (do
          let t ← rehashWith layout again { t with lastfree := 0 } key
          luaHSetWith layout again t key)) := by
  rw [newkeyWith]
  by_cases collides : (t.gnode (t.mainposition layout key)).val ≠ .nil ∨ t.dummy = true
  · rw [if_pos collides, getfreepos]
    cases found : t.freeBelow t.lastfree with
    | none =>
        right
        refine ⟨?_, rfl⟩
        cases live : t.dummy with
        | true => exact .inl rfl
        | false => exact .inr (valid.full live found)
    | some n =>
        left
        have live : t.dummy = false := by
          by_contra dummy
          obtain ⟨-, none_free⟩ := valid.empty (Bool.not_eq_false _ ▸ dummy)
          have below := (freeBelow_eq_some found).1
          omega
        have taken := collides.resolve_right (by simp [live])
        by_cases own : t.mainposition layout (t.gnode (t.mainposition layout key)).key =
            t.mainposition layout key
        · refine ⟨_, _, ?_, valid.placed_chain some_key absent live taken own found⟩
          exact if_neg (not_not.mpr own)
        · have held := scatter_key_eq_some.mpr ⟨(valid.valued _ taken).1, rfl⟩
          obtain ⟨o, previous, link⟩ := valid.chained.search_previous valid.node_of_key
            (Finset.card_range _).le (Finset.mem_range.mpr (mainposition_lt _)) held own
          refine ⟨_, _, ?_, valid.placed_move some_key absent live taken own found link⟩
          have previous' : { t with lastfree := n }.previous (t.mainposition layout key)
              (mainposition layout { t with lastfree := n }
                (t.gnode (t.mainposition layout key)).key) = some o := previous
          refine (if_pos own).trans ?_
          simp only [Option.getD_some]
          rw [show ({ t with lastfree := n } : Table).gnode = t.gnode from rfl, previous']
  · left
    rw [if_neg collides]
    rw [not_or, not_not] at collides
    exact ⟨_, _, rfl, valid.placed_put some_key absent (Bool.not_eq_true _ ▸ collides.2) collides.1⟩

end Newkey


end Table

end LuaScript
