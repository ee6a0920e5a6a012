import LuaScript.Traversal

/-!
# Boundaries

`luaH_getn` finds an index with a value whose successor has none: by a binary search in the array
part, or from its end by doubling and then by a binary search, or by a linear search when doubling
overflows.
-/

namespace LuaScript

namespace Table

/-! ## Searches -/

section Searches

variable {layout : Layout} {t : Table}

/-- A binary search between a present index, or zero, and an absent one. -/
theorem binarySearch_spec (present : Nat → Bool) (rounds : Nat) {i j : Nat} (lt : i < j)
    (enough : j - i ≤ 2 ^ rounds) (low : i = 0 ∨ present i = true) (high : present j = false) :
    ∃ n, binarySearch present (rounds + 1) i j = some n ∧ n < j ∧
      (n = 0 ∨ present n = true) ∧ present (n + 1) = false := by
  have adjacent {i j : Nat} (lt : i < j) (close : ¬1 < j - i) (low : i = 0 ∨ present i = true)
      (high : present j = false) :
      i < j ∧ (i = 0 ∨ present i = true) ∧ present (i + 1) = false := by
    have same : i + 1 = j := by omega
    exact ⟨lt, low, same ▸ high⟩
  induction rounds generalizing i j with
  | zero =>
      have close : ¬1 < j - i := by simpa using enough
      rw [binarySearch, if_neg close]
      exact ⟨i, rfl, adjacent lt close low high⟩
  | succ rounds induction =>
      rw [Nat.pow_succ] at enough
      rw [binarySearch]
      by_cases apart : 1 < j - i
      · rw [if_pos apart]
        cases middle : present ((i + j) / 2) with
        | true =>
            simp only [middle, if_true]
            exact induction (i := (i + j) / 2) (by omega) (by omega) (.inr middle) high
        | false =>
            obtain ⟨n, result, below, rest⟩ :=
              induction (j := (i + j) / 2) (by omega) (by omega) low middle
            simp only [middle, Bool.false_eq_true, if_false]
            exact ⟨n, result, by omega, rest⟩
      · rw [if_neg apart]
        exact ⟨i, rfl, adjacent lt apart low high⟩

theorem getnum_eq (t : Table) {k : Int} (low : -2 ^ 31 ≤ k) (high : k < 2 ^ 31) :
    t.getnum layout k = t.get layout (.number k) := by
  rw [getnum, get, luaHGet, exactInt_eq_some_iff.mpr ⟨rfl, low, high⟩]

/-- There are more indices than slots. -/
theorem Valid.exists_absent (valid : t.Valid layout) :
    ∃ k, 1 ≤ k ∧ k ≤ t.slots + 1 ∧ t.get layout (.number (k : Nat)) = .nil := by
  by_contra all
  have present (k : Nat) (member : k ∈ Finset.Icc 1 (t.slots + 1)) :
      t.get layout (.number k) ≠ .nil := by
    intro absent
    rw [Finset.mem_Icc] at member
    exact all ⟨k, member.1, member.2, absent⟩
  have placed (k : Nat) (member : k ∈ Finset.Icc 1 (t.slots + 1)) :
      ∃ p ∈ Finset.range t.slots, t.keyAt p = .number k := by
    obtain ⟨p, bound, key_eq, -⟩ := valid.exists_valueAt (present k member)
    exact ⟨p, Finset.mem_range.mpr bound, key_eq⟩
  choose! place inside key_eq using placed
  have injective : Set.InjOn place (Finset.Icc 1 (t.slots + 1)) := by
    intro k member k' member' same
    have keys := (key_eq k member).symm.trans ((congrArg t.keyAt same).trans (key_eq k' member'))
    exact Nat.cast_injective (R := Rat) (Value.number.inj keys)
  have card := Finset.card_le_card_of_injOn place inside injective
  rw [Nat.card_Icc, Finset.card_range] at card
  omega

/-- The linear search stops before an absent index. -/
theorem linearSearch_spec (rounds : Nat) {i k : Nat} (positive : 1 ≤ i) (le : i ≤ k)
    (enough : k < i + rounds) (low : i = 1 ∨ t.getnum layout (i - 1 : Nat) ≠ .nil)
    (absent : t.getnum layout k = .nil) :
    ∃ n, t.linearSearch layout rounds i = some n ∧ n < k ∧
      (n = 0 ∨ t.getnum layout n ≠ .nil) ∧ t.getnum layout (n + 1 : Nat) = .nil := by
  induction rounds generalizing i with
  | zero => omega
  | succ rounds induction =>
      rw [linearSearch]
      split_ifs with present
      · have other : i ≠ k := by
          rintro rfl
          exact present absent
        refine induction (i := i + 1) (by omega) (by omega) (by omega) (.inr ?_)
        rw [Nat.add_sub_cancel]
        exact present
      · have same : i - 1 + 1 = i := Nat.sub_add_cancel positive
        refine ⟨i - 1, rfl, by omega, low.imp_left (by omega), ?_⟩
        rw [same]
        exact not_not.mp present

/-- The doubling loop ends between a present index, or zero, and an absent one, or with the result
of the linear search. -/
theorem Valid.doubling_spec (valid : t.Valid layout) (rounds : Nat) {i j : Nat} (lt : i < j)
    (small : j ≤ maxInt) (enough : maxInt < j * 2 ^ rounds)
    (low : i = 0 ∨ t.getnum layout i ≠ .nil) :
    (∃ i' j', t.doubling layout rounds i j = some (.inl (i', j')) ∧ i' < j' ∧ j' ≤ maxInt ∧
        (i' = 0 ∨ t.getnum layout i' ≠ .nil) ∧ t.getnum layout j' = .nil) ∨
      ∃ n, t.doubling layout rounds i j = some (.inr n) ∧ n < 2 ^ 31 - 1 ∧
        (n = 0 ∨ t.getnum layout n ≠ .nil) ∧ t.getnum layout (n + 1 : Nat) = .nil := by
  induction rounds generalizing i j with
  | zero => omega
  | succ rounds induction =>
      rw [doubling]
      split_ifs with present large
      · right
        obtain ⟨k, positive, le, absent⟩ := valid.exists_absent
        have elements := valid.elements
        have nodes_le := valid.nodes_le
        rw [maxbits] at elements nodes_le
        rw [slots] at le
        have absent' : t.getnum layout (k : Int) = .nil := by
          rw [getnum_eq t (by omega) (by omega)]
          exact_mod_cast absent
        obtain ⟨n, result, below, border⟩ := linearSearch_spec (2 ^ 31)
          le_rfl positive (by omega) (.inl rfl) absent'
        exact ⟨n, by rw [result]; rfl, by omega, border⟩
      · refine induction (i := j) (j := j * 2) (by omega) (by omega) ?_ (.inr present)
        rw [Nat.pow_succ, Nat.mul_comm (2 ^ rounds), ← Nat.mul_assoc] at enough
        exact enough
      · exact .inl ⟨i, j, rfl, lt, small, low, not_not.mp present⟩

/-- `unbound_search`, from the end of the array part, finds a boundary. -/
theorem Valid.unboundSearch_spec (valid : t.Valid layout) {j : Nat} (small : j < maxInt)
    (low : j = 0 ∨ t.getnum layout j ≠ .nil) :
    ∃ n, t.unboundSearch layout j = some n ∧ n < 2 ^ 31 - 1 ∧
      (n = 0 ∨ t.getnum layout n ≠ .nil) ∧ t.getnum layout (n + 1 : Nat) = .nil := by
  rw [unboundSearch]
  have enough : maxInt < (j + 1) * 2 ^ 32 := by
    rw [maxInt] at small ⊢
    omega
  rcases valid.doubling_spec 32 j.lt_succ_self small enough low with
    ⟨i', j', result, lt, small', low', high'⟩ | ⟨n, result, border⟩
  · rw [result]
    rw [maxInt] at small'
    obtain ⟨n, found, below, present, absent⟩ := binarySearch_spec
      (fun m => t.getnum layout m ≠ .nil) 31 lt (by omega)
      (low'.imp_right fun present => decide_eq_true present) (by simp [high'])
    refine ⟨n, found, by omega, present.imp_right of_decide_eq_true, ?_⟩
    simpa using absent
  · rw [result]
    exact ⟨n, rfl, border⟩

end Searches

/-- `luaH_getn` returns an index with a value, or zero, whose successor has no value. -/
theorem luaHGetn_boundary {layout : Layout} {t : Table} (valid : t.Valid layout) :
    ∃ n, t.luaHGetn layout = some n ∧ (n = 0 ∨ t.get layout (.number n) ≠ .nil) ∧
      t.get layout (.number (n + 1 : Nat)) = .nil := by
  have elements := valid.elements
  rw [maxbits] at elements
  have getnum_nat (k : Nat) (below : k < 2 ^ 31) :
      t.getnum layout (k : Int) = t.get layout (.number k) := by
    rw [getnum_eq t (by omega) (by omega), Int.cast_natCast]
  have element (k : Nat) (positive : 1 ≤ k) (inside : k ≤ t.array.length) :
      t.get layout (.number k) = t.array.getD (k - 1) .nil := by
    have same := valid.get_of_index (i := k - 1) (by omega)
    rwa [Nat.sub_add_cancel positive] at same
  rw [luaHGetn]
  split_ifs with hole dummy
  · obtain ⟨positive, empty⟩ := hole
    obtain ⟨n, found, below, present, absent⟩ := binarySearch_spec
      (fun m => t.array.getD (m - 1) .nil ≠ .nil) 31 positive (by omega) (.inl rfl)
      (by simp only [empty, ne_eq, not_true_eq_false, decide_false])
    refine ⟨n, found, ?_, ?_⟩
    · rcases Nat.eq_zero_or_pos n with zero | positive_n
      · exact .inl zero
      · right
        rw [element n positive_n below.le]
        exact of_decide_eq_true (present.resolve_left positive_n.ne')
    · rw [element (n + 1) (by omega) below]
      simpa using absent
  · refine ⟨t.array.length, rfl, ?_, ?_⟩
    · rcases Nat.eq_zero_or_pos t.array.length with zero | positive
      · exact .inl zero
      · right
        rw [element _ positive le_rfl]
        exact fun empty => hole ⟨positive, empty⟩
    · refine valid.get_eq_nil fun slot held => ?_
      cases slot with
      | array i =>
          have same := Nat.cast_injective (R := Rat) (Value.number.inj held.2)
          have inside : i < t.array.length := held.1
          omega
      | node i =>
          obtain ⟨some_key, here, -⟩ := held
          have bound := valid.node_lt (here.symm ▸ some_key)
          have single := (valid.empty dummy).1
          rw [gnode, single] at here
          cases i with
          | zero => exact some_key here.symm
          | succ i => exact some_key here.symm
  · have low : t.array.length = 0 ∨ t.getnum layout t.array.length ≠ .nil := by
      rcases Nat.eq_zero_or_pos t.array.length with zero | positive
      · exact .inl zero
      · right
        rw [getnum_nat _ (by omega), element _ positive le_rfl]
        exact fun empty => hole ⟨positive, empty⟩
    obtain ⟨n, found, below, present, absent⟩ :=
      valid.unboundSearch_spec (by rw [maxInt]; omega) low
    refine ⟨n, found, present.imp_right fun value => ?_, ?_⟩
    · rwa [getnum_nat n (by omega)] at value
    · rwa [getnum_nat (n + 1) (by omega)] at absent

/-- A boundary before the hole of an array part. -/
theorem luaHGetn_hole :
    ∃ n, (ofElements [.boolean true, .nil]).luaHGetn Layout.flat = some n ∧
      (n = 0 ∨ (ofElements [.boolean true, .nil]).get Layout.flat (.number n) ≠ .nil) ∧
      (ofElements [.boolean true, .nil]).get Layout.flat (.number (n + 1 : Nat)) = .nil :=
  luaHGetn_boundary (valid_ofElements Layout.flat (Nat.le_of_ble_eq_true rfl))

end Table

end LuaScript
