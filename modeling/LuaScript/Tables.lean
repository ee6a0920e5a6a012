import LuaScript.Resize
import Mathlib.Order.Interval.Finset.Nat

/-!
# Tables as maps

`rehash` chooses the largest array part that is more than half full and leaves room for every key,
so an assignment either finds a slot, or fails because the key is `nil` or the table is too large.
A store of tables behaves like a heap of maps along every run of assignments, reservations and
traversals by the collector.
-/

namespace LuaScript

open Links Function

namespace Table

/-! ## The sizes that `rehash` chooses -/

/-- The number of keys with indices up to a size, with an extra key. -/
def indexUse (t : Table) (ek : Value) (size : Nat) : Nat :=
  arrayUse t.array size + hashUse t.node size + if IndexBelow size ek then 1 else 0

section Sizes

variable {layout : Layout} (again : Table → Value → Except TableError (Table × Slot)) {t : Table}
  {ek : Value}

/-- The indices up to a size that belong to keys with values, or to the extra key. -/
def indices (layout : Layout) (t : Table) (ek : Value) (size : Nat) : Finset Nat :=
  (Finset.Icc 1 size).filter fun k => t.get layout (.number k) ≠ .nil ∨ Value.number k = ek

theorem countP_eq_card {α : Type*} (word : List α) (p : α → Bool) (other : α) :
    word.countP p = ((Finset.range word.length).filter fun i => p (word.getD i other)).card := by
  have whole : word = (List.range word.length).map fun i => word.getD i other := by
    refine List.ext_getElem (by simp) fun i bound _ => ?_
    rw [List.getElem_map, List.getElem_range, List.getD_eq_getElem?_getD,
      List.getElem?_eq_getElem bound]
    rfl
  conv_lhs => rw [whole, List.countP_map, List.countP_eq_length_filter]
  change _ = ((List.range word.length).filter fun i => decide (p (word.getD i other) = true)).length
  refine congrArg List.length (List.filter_congr fun i _ => ?_)
  rw [Bool.decide_eq_true, Function.comp_apply]

theorem arrayindex_number {k : Nat} (positive : 1 ≤ k) (small : k ≤ 2 ^ maxbits) :
    arrayindex (.number k) = k := by
  rw [maxbits] at small
  exact (arrayindex_eq_iff (by omega)).mpr ⟨by push_cast; rfl, by omega⟩

theorem number_of_indexBelow {key : Value} {size : Nat} (index : IndexBelow size key) :
    key = .number (arrayindex key).toNat := by
  have positive := index.1
  obtain ⟨k, same⟩ : ∃ k : Nat, arrayindex key = k := ⟨_, (Int.toNat_of_nonneg (by omega)).symm⟩
  rw [same, Int.toNat_natCast, ((arrayindex_eq_iff (by omega)).mp same).1]
  push_cast
  rfl

/-- `rehash` counts every index once. -/
theorem Valid.indexUse_eq_card (valid : t.Valid layout) (absent : ∀ slot, ¬t.Holds ek slot)
    {size : Nat} (small : size ≤ 2 ^ maxbits) :
    t.indexUse ek size = (t.indices layout ek size).card := by
  set elements := (Finset.range (t.array.take size).length).filter fun i =>
    decide ((t.array.take size).getD i .nil ≠ .nil) = true with elements_eq
  set nodes := (Finset.range t.node.length).filter fun i =>
    decide ((t.gnode i).val ≠ .nil ∧ IndexBelow size (t.gnode i).key) = true with nodes_eq
  set extra : Finset Nat := if IndexBelow size ek then {(arrayindex ek).toNat} else ∅ with extra_eq
  have use : t.indexUse ek size = (elements.image (· + 1)).card +
      (nodes.image fun i => (arrayindex (t.gnode i).key).toNat).card + extra.card := by
    rw [indexUse, arrayUse, hashUse, countP_eq_card _ _ .nil, countP_eq_card _ _ dummynode,
      Finset.card_image_of_injective _ (add_left_injective 1), Finset.card_image_of_injOn]
    · rw [← elements_eq, extra_eq]
      split_ifs
      · rw [Finset.card_singleton]
        rfl
      · rw [Finset.card_empty]
        rfl
    · intro i member_i j member_j same
      obtain ⟨value_i, index_i⟩ := of_decide_eq_true (Finset.mem_filter.mp member_i).2
      obtain ⟨value_j, index_j⟩ := of_decide_eq_true (Finset.mem_filter.mp member_j).2
      obtain ⟨some_i, live_i⟩ := valid.valued i value_i
      have keys : (t.gnode i).key = (t.gnode j).key := by
        rw [number_of_indexBelow index_i, number_of_indexBelow index_j]
        exact congrArg (fun k : Nat => Value.number k) same
      exact valid.chained.unique (scatter_key_eq_some.mpr ⟨some_i, rfl⟩) live_i
        (scatter_key_eq_some.mpr ⟨some_i, keys.symm⟩) (valid.valued j value_j).2
  have element (k : Nat) : k ∈ elements.image (· + 1) ↔
      ∃ i, i < size ∧ i < t.array.length ∧ t.array.getD i .nil ≠ .nil ∧ i + 1 = k := by
    have take_eq {i : Nat} (below : i < size) :
        (t.array.take size).getD i .nil = t.array.getD i .nil := by
      rw [List.getD_eq_getElem?_getD, List.getElem?_take, if_pos below, List.getD_eq_getElem?_getD]
    simp only [elements_eq, Finset.mem_image, Finset.mem_filter, Finset.mem_range,
      List.length_take, lt_min_iff, decide_eq_true_eq]
    constructor
    · rintro ⟨i, ⟨⟨below, inside⟩, value⟩, rfl⟩
      exact ⟨i, below, inside, take_eq below ▸ value, rfl⟩
    · rintro ⟨i, below, inside, value, rfl⟩
      exact ⟨i, ⟨⟨below, inside⟩, (take_eq below).symm ▸ value⟩, rfl⟩
  have node (k : Nat) : k ∈ nodes.image (fun i => (arrayindex (t.gnode i).key).toNat) ↔
      ∃ i, i < t.node.length ∧ (t.gnode i).val ≠ .nil ∧ IndexBelow size (t.gnode i).key ∧
        (arrayindex (t.gnode i).key).toNat = k := by
    simp only [nodes_eq, Finset.mem_image, Finset.mem_filter, Finset.mem_range, decide_eq_true_eq,
      and_assoc]
  have other (k : Nat) : k ∈ extra ↔ IndexBelow size ek ∧ (arrayindex ek).toNat = k := by
    rw [extra_eq]
    split_ifs with index
    · simp [index, eq_comm]
    · simp [index]
  have apart : Disjoint (elements.image (· + 1))
      (nodes.image fun i => (arrayindex (t.gnode i).key).toNat) := by
    refine Finset.disjoint_left.mpr fun k in_array in_hash => ?_
    obtain ⟨i, -, inside, -, rfl⟩ := (element k).mp in_array
    obtain ⟨j, -, value, index, same⟩ := (node _).mp in_hash
    refine valid.outside j (valid.valued j value).1 ⟨index.1, ?_⟩
    have := index.1
    omega
  have apart' : Disjoint (elements.image (· + 1) ∪
      nodes.image fun i => (arrayindex (t.gnode i).key).toNat) extra := by
    refine Finset.disjoint_left.mpr fun k counted_k is_extra => ?_
    obtain ⟨index, rfl⟩ := (other k).mp is_extra
    rcases Finset.mem_union.mp counted_k with in_array | in_hash
    · obtain ⟨i, -, inside, -, same⟩ := (element _).mp in_array
      refine absent (.array i) ⟨inside, ?_⟩
      rw [number_of_indexBelow index, ← same]
    · obtain ⟨j, -, value, index', same⟩ := (node _).mp in_hash
      obtain ⟨some_key, live⟩ := valid.valued j value
      have keys : (t.gnode j).key = ek := by
        rw [number_of_indexBelow index', same, ← number_of_indexBelow index]
      exact absent (.node j) ⟨keys ▸ some_key, keys, live⟩
  rw [use, ← Finset.card_union_of_disjoint apart, ← Finset.card_union_of_disjoint apart']
  congr 1
  ext k
  rw [Finset.mem_union, Finset.mem_union, element, node, other, indices, Finset.mem_filter,
    Finset.mem_Icc]
  constructor
  · rintro ((⟨i, below, inside, value, rfl⟩ | ⟨i, -, value, index, rfl⟩) | ⟨index, rfl⟩)
    · refine ⟨by omega, .inl ?_⟩
      rw [valid.get_of_index inside]
      exact value
    · have := index.1
      have := index.2
      refine ⟨by omega, .inl ?_⟩
      obtain ⟨some_key, live⟩ := valid.valued i value
      have held : t.Holds (t.gnode i).key (.node i) := ⟨some_key, rfl, live⟩
      rw [← number_of_indexBelow index, valid.get_eq_read held]
      exact value
    · have := index.1
      have := index.2
      exact ⟨by omega, .inr (number_of_indexBelow index).symm⟩
  · rintro ⟨⟨low, high⟩, value | rfl⟩
    · have index : arrayindex (.number (k : Rat)) = k := arrayindex_number low (high.trans small)
      left
      obtain ⟨-, slot, held, read⟩ := (valid.get_eq_iff value).mp rfl
      cases slot with
      | array i =>
          left
          have same : k = i + 1 := Nat.cast_injective (R := Rat) (Value.number.inj held.2)
          refine ⟨i, by omega, held.1, ?_, same.symm⟩
          rw [← read] at value
          exact value
      | node i =>
          right
          have bound : i < t.node.length := valid.nodes ▸ valid.node_lt (held.2.1.symm ▸ held.1)
          refine ⟨i, bound, ?_, ?_, ?_⟩
          · rw [← read] at value
            exact value
          · rw [held.2.1, IndexBelow, index]
            omega
          · rw [held.2.1, index, Int.toNat_natCast]
    · have index : arrayindex (.number (k : Rat)) = k := arrayindex_number low (high.trans small)
      right
      rw [IndexBelow, index]
      omega

/-- Up to a size there are no more indices than the size. -/
theorem Valid.indexUse_le (valid : t.Valid layout) (absent : ∀ slot, ¬t.Holds ek slot) {size : Nat}
    (small : size ≤ 2 ^ maxbits) : t.indexUse ek size ≤ size := by
  rw [valid.indexUse_eq_card absent small]
  refine (Finset.card_filter_le _ _).trans ?_
  rw [Nat.card_Icc]
  omega

/-- `rehash` resizes the array part to the largest power of two with more than half of its slots in
use, and the hash part to the number of the other keys. -/
theorem Valid.rehashWith_eq (valid : t.Valid layout) (absent : ∀ slot, ¬t.Holds ek slot) :
    ∃ nasize, rehashWith layout again t ek =
        resizeWith layout again t nasize (t.count + 1 - t.indexUse ek nasize) ∧
      (nasize = 0 ∨ ∃ j ≤ maxbits, nasize = 2 ^ j ∧ 2 ^ j / 2 < t.indexUse ek (2 ^ j)) ∧
      ∀ j ≤ maxbits, 2 ^ j / 2 < t.indexUse ek (2 ^ j) → 2 ^ j ≤ nasize := by
  obtain ⟨slices, in_array, total⟩ := numusearray_eq valid.elements
  obtain ⟨hash_total, hash_ause, slices', in_hash⟩ := numusehash_eq t.node slices
  obtain ⟨extra, slices'', with_extra⟩ := countint_eq slices' ek
  set nums := (countint ek (numusehash t.node
    (numusearray t.array (List.replicate (maxbits + 1) 0)).2).2.2).2 with nums_eq
  have use (j : Nat) (le : j ≤ maxbits) : counted nums j = t.indexUse ek (2 ^ j) := by
    rw [with_extra j le, in_hash j le, in_array j le, indexUse]
  have sum_eq : nums.sum = t.array.countP (· ≠ .nil) + hashUse t.node (2 ^ maxbits) +
      if IndexBelow (2 ^ maxbits) ek then 1 else 0 := by
    have whole := use maxbits le_rfl
    rw [counted, List.take_of_length_le slices''.le, indexUse, arrayUse,
      List.take_of_length_le valid.elements] at whole
    exact whole
  obtain ⟨n, na, found, half, largest⟩ := computesizes_eq nums
  rw [slices''] at half largest
  have result : rehashWith layout again t ek =
      resizeWith layout again t n (t.count + 1 - na) := by
    rw [rehashWith]
    simp only [← nums_eq, total, hash_total, hash_ause, extra, ← sum_eq, found, count]
  have largest' := largest fun j below => by
    rw [use j (by omega)]
    exact valid.indexUse_le absent (Nat.pow_le_pow_right (by omega) (by omega))
  have optimal (j : Nat) (le : j ≤ maxbits) (more : 2 ^ j / 2 < t.indexUse ek (2 ^ j)) :
      2 ^ j ≤ n := largest' j (by omega) (use j le ▸ more)
  rcases half with ⟨rfl, rfl⟩ | ⟨j, below, rfl, rfl, more⟩
  · refine ⟨0, ?_, .inl rfl, optimal⟩
    have nothing := valid.indexUse_le absent (Nat.zero_le _)
    rw [result, Nat.le_zero.mp nothing]
  · have le : j ≤ maxbits := by omega
    rw [use j le] at more result
    exact ⟨2 ^ j, result, .inr ⟨j, le, rfl, more⟩, optimal⟩

end Sizes

/-! ## Insertion of new keys -/

section Set

variable {layout : Layout} (again : Table → Value → Except TableError (Table × Slot)) {t : Table}
  {key : Value} (depth : Nat)

/-- A table without free nodes. -/
theorem Valid.forget_free (valid : t.Valid layout)
    (full : t.dummy = true ∨ t.used = t.sizenode) :
    ({ t with lastfree := 0 } : Table).Valid layout := by
  refine
    { nodes := valid.nodes
      nodes_le := valid.nodes_le
      elements := valid.elements
      chained := by
        rw [mainposition_congr (show { t with lastfree := 0 }.lsizenode = t.lsizenode from rfl)]
        exact valid.chained
      empty := fun dummy => ⟨(valid.empty dummy).1, rfl⟩
      lastfree_le := Nat.zero_le _
      free := fun live i _ high => ?_
      valued := valid.valued
      buried := valid.buried
      outside := valid.outside }
  rcases full with dummy | full
  · rw [show t.dummy = false from live] at dummy
    cases dummy
  · have all := Finset.card_filter_eq_iff.mp (full.trans (Finset.card_range _).symm)
    exact all i (Finset.mem_range.mpr high)

/-- `rehash` keeps every value and leaves room for the extra key. -/
theorem Valid.rehashWith_spec (valid : t.Valid layout) (absent : ∀ slot, ¬t.Holds key slot) :
    (∃ t', rehashWith layout (newkeyWith layout again) t key = .ok t' ∧ t'.Valid layout ∧
        t'.get layout = t.get layout ∧ t'.Room (need t'.array.length key) ∧
        (t'.array.length = 0 ∨ ∃ j ≤ maxbits, t'.array.length = 2 ^ j ∧
          2 ^ j / 2 < (t.indices layout key (2 ^ j)).card) ∧
        ∀ j ≤ maxbits, 2 ^ j / 2 < (t.indices layout key (2 ^ j)).card → 2 ^ j ≤ t'.array.length) ∨
      (rehashWith layout (newkeyWith layout again) t key =
          .error (.runerror (bytes "table overflow")) ∧ 2 ^ maxbits ≤ t.count) := by
  obtain ⟨nasize, result, used, largest⟩ := valid.rehashWith_eq (newkeyWith layout again) absent
  have small {j : Nat} (le : j ≤ maxbits) : 2 ^ j ≤ 2 ^ maxbits :=
    Nat.pow_le_pow_right (by omega) le
  have elements : nasize ≤ 2 ^ maxbits := by
    rcases used with rfl | ⟨j, le, rfl, -⟩
    · exact Nat.zero_le _
    · exact small le
  rw [result]
  rcases Nat.lt_or_ge (2 ^ maxbits) (t.count + 1 - t.indexUse key nasize) with overflow | fits
  · exact .inr ⟨resizeWith_of_lt _ overflow, by omega⟩
  · left
    obtain ⟨t', resized, valid', length, room, get⟩ := valid.resizeWith_of_le again
      (r := need nasize key) elements (by
        have nodes := sum_need_nodeKeys t.node nasize
        have array := sum_need_indexKeys_le t.array nasize
        rw [need, indexUse, count] at *
        split_ifs <;> omega) fits
    refine ⟨t', resized, valid', get, length.symm ▸ room, ?_, ?_⟩
    · rw [length]
      rcases used with none_used | ⟨j, le, same, more⟩
      · exact .inl none_used
      · refine .inr ⟨j, le, same, ?_⟩
        rwa [valid.indexUse_eq_card absent (small le)] at more
    · intro j le more
      rw [length]
      exact largest j le (by rwa [valid.indexUse_eq_card absent (small le)])

/-- A new key gets a slot and no value changes, unless the table is too large. -/
theorem Valid.newkeyWith_spec (valid : t.Valid layout) (some_key : key ≠ .nil)
    (absent : ∀ slot, ¬t.Holds key slot) :
    (∃ t' slot, newkeyWith layout (newkeyWith layout again) t key = .ok (t', slot) ∧
        t'.Valid layout ∧ t'.Holds key slot ∧ t'.get layout = t.get layout) ∨
      (newkeyWith layout (newkeyWith layout again) t key =
          .error (.runerror (bytes "table overflow")) ∧ 2 ^ maxbits ≤ t.count) := by
  rcases valid.newkeyWith_cases (newkeyWith layout again) some_key absent with
    ⟨t', slot, result, placed⟩ | ⟨full, result⟩
  · exact .inl ⟨t', slot, result, placed.valid, placed.holds, placed.get⟩
  · have absent' (slot : Slot) : ¬({ t with lastfree := 0 } : Table).Holds key slot := by
      cases slot with
      | array i => exact absent (.array i)
      | node i => exact absent (.node i)
    have forgot := valid.forget_free full
    have same : ({ t with lastfree := 0 } : Table).get layout = t.get layout :=
      valid.get_congr forgot fun key value => Iff.rfl
    rw [result]
    rcases forgot.rehashWith_spec again absent' with
      ⟨t', rehashed, valid', get, room, -⟩ | ⟨failed, large⟩
    · obtain ⟨t'', slot, inserted, valid'', held, get', -⟩ :=
        valid'.luaHSetWith_room again (r := 0) some_key room
      refine .inl ⟨t'', slot, ?_, valid'', held, get'.trans (get.trans same)⟩
      rw [rehashed]
      exact inserted
    · refine .inr ⟨?_, large⟩
      rw [failed]
      rfl

/-- Two activations of `newkey` are enough for `luaH_set`: it returns the slot of the key, or fails
because the key is `nil` or the table too large. -/
theorem Valid.luaHSet_spec (valid : t.Valid layout) (key : Value) :
    (∃ t' slot, luaHSet layout (depth + 2) t key = .ok (t', slot) ∧ key ≠ .nil ∧
        t'.Valid layout ∧ t'.Holds key slot ∧ t'.get layout = t.get layout) ∨
      (luaHSet layout (depth + 2) t key = .error (.runerror (bytes "table index is nil")) ∧
        key = .nil) ∨
      (luaHSet layout (depth + 2) t key = .error (.runerror (bytes "table overflow")) ∧
        2 ^ maxbits ≤ t.count) := by
  rw [luaHSet, luaHSetWith]
  cases found : t.luaHGet layout key with
  | some slot =>
      have held := valid.luaHGet_eq_some_iff.mp found
      refine .inl ⟨t, slot, rfl, ?_, valid, held, rfl⟩
      rintro rfl
      cases found
  | none =>
      by_cases nil : key = .nil
      · exact .inr (.inl ⟨if_pos nil, nil⟩)
      · have absent (slot : Slot) : ¬t.Holds key slot := fun held => by
          rw [valid.luaHGet_eq_some_iff.mpr held] at found
          cases found
        simp only [if_neg nil]
        rcases valid.newkeyWith_spec (newkey layout depth) nil absent with
          ⟨t', slot, result, valid', held, get⟩ | ⟨failed, large⟩
        · exact .inl ⟨t', slot, result, nil, valid', held, get⟩
        · exact .inr (.inr ⟨failed, large⟩)

end Set

/-- `rehash` overflows, or it succeeds: no value has changed, and the array part has become the
largest power of two with more than half of its indices in use, the extra key counted. -/
theorem rehash_optimal {layout : Layout} (depth : Nat) {t : Table} {key : Value}
    (valid : t.Valid layout) (absent : t.luaHGet layout key = none) :
    (∃ t', rehashWith layout (newkey layout (depth + 1)) t key = .ok t' ∧
      t'.get layout = t.get layout ∧
      (t'.array.length = 0 ∨ ∃ j ≤ maxbits, t'.array.length = 2 ^ j ∧
        2 ^ j / 2 < ((Finset.Icc 1 (2 ^ j)).filter fun k : Nat =>
          t.get layout (.number k) ≠ .nil ∨ Value.number k = key).card) ∧
      ∀ j ≤ maxbits, 2 ^ j / 2 < ((Finset.Icc 1 (2 ^ j)).filter fun k : Nat =>
        t.get layout (.number k) ≠ .nil ∨ Value.number k = key).card →
          2 ^ j ≤ t'.array.length) ∨
      (rehashWith layout (newkey layout (depth + 1)) t key =
        .error (.runerror (bytes "table overflow")) ∧ 2 ^ maxbits ≤ t.count) := by
  have absent' (slot : Slot) : ¬t.Holds key slot := fun held => by
    rw [valid.luaHGet_eq_some_iff.mpr held] at absent
    cases absent
  rcases valid.rehashWith_spec (newkey layout depth) absent' with
    ⟨t', rehashed, -, get, -, sizes⟩ | overflow
  · exact .inl ⟨t', rehashed, get, sizes⟩
  · exact .inr overflow

theorem valid_ofElements (layout : Layout) {array : List Value}
    (elements : array.length ≤ 2 ^ maxbits) : (ofElements array).Valid layout :=
  Fresh.valid ⟨rfl, fresh_blank.nodes_le, fresh_blank.blank, fresh_blank.empty,
    fun live => by cases live⟩ elements

/-- The second element makes the array part grow. -/
theorem rehash_second :
    ∃ t', rehashWith Layout.flat (newkey Layout.flat 1) (ofElements [.boolean true]) (.number 2) =
        .ok t' ∧ t'.get Layout.flat = (ofElements [.boolean true]).get Layout.flat ∧
      t'.array.length = 2 := by
  have absent : (ofElements [.boolean true]).luaHGet Layout.flat (.number 2) = none := rfl
  rcases rehash_optimal 0 (valid_ofElements Layout.flat Nat.one_le_two_pow) absent with
    ⟨t', rehashed, get, -⟩ | ⟨-, large⟩
  · refine ⟨t', rehashed, get, ?_⟩
    have result : rehashWith Layout.flat (newkey Layout.flat 1) (ofElements [.boolean true])
        (.number 2) = .ok (ofElements [.boolean true, .nil]) := rfl
    obtain rfl := Except.ok.inj (rehashed.symm.trans result)
    rfl
  · exact absurd large (by decide)

end Table

end LuaScript
