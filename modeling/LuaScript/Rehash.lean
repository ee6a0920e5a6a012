import LuaScript.NewKey

/-!
# Rehash

`rehash` counts the integer keys by slices between powers of two and chooses from the counts the
largest array part that is more than half full.  It leaves nodes for all other keys, so that none of
the insertions it makes can call it again, and every value is found again after it.
-/

namespace LuaScript

open Function

/-! ## Counting -/

/-- The number of keys up to the end of a slice. -/
def counted (nums : List Nat) (j : Nat) : Nat := (nums.take (j + 1)).sum

/-- The key is an index of an array part of the given size. -/
def IndexBelow (size : Nat) (key : Value) : Prop :=
  1 ≤ arrayindex key ∧ arrayindex key ≤ size

instance (size : Nat) (key : Value) : Decidable (IndexBelow size key) :=
  inferInstanceAs (Decidable (_ ∧ _))

/-- The keys of the array part up to a size. -/
def arrayUse (array : List Value) (size : Nat) : Nat := (array.take size).countP (· ≠ .nil)

/-- The integer keys of the hash part up to a size. -/
def hashUse (node : List Node) (size : Nat) : Nat :=
  node.countP fun n => n.val ≠ .nil ∧ IndexBelow size n.key

/-- The keys of the hash part. -/
def hashTotal (node : List Node) : Nat := node.countP fun n => n.val ≠ .nil

theorem sum_take_modify (nums : List Nat) {i : Nat} (bound : i < nums.length) (j : Nat) :
    ((nums.modify i (· + 1)).take j).sum = (nums.take j).sum + if i < j then 1 else 0 := by
  induction nums generalizing i j with
  | nil => simp at bound
  | cons num nums induction =>
      cases j with
      | zero => simp
      | succ j =>
          cases i with
          | zero =>
              simp
              omega
          | succ i =>
              have rest := induction (i := i) (by simpa using bound) j
              simp only [List.modify_succ_cons, List.take_succ_cons, List.sum_cons, rest,
                Nat.add_lt_add_iff_right]
              omega

/-- `countint` counts a key in every size that has room for its index. -/
theorem countint_eq {nums : List Nat} (slices : nums.length = maxbits + 1) (key : Value) :
    (countint key nums).1 = (if IndexBelow (2 ^ maxbits) key then 1 else 0) ∧
      (countint key nums).2.length = maxbits + 1 ∧
      ∀ j ≤ maxbits, counted (countint key nums).2 j =
        counted nums j + if IndexBelow (2 ^ j) key then 1 else 0 := by
  by_cases index : IndexBelow (2 ^ maxbits) key
  · obtain ⟨k, same⟩ : ∃ k : Nat, arrayindex key = k :=
      ⟨_, (Int.toNat_of_nonneg (zero_le_one.trans index.1)).symm⟩
    have below := index
    rw [IndexBelow, same] at below
    norm_cast at below
    have positive : 0 < k := below.1
    have slice : ceillog2 k ≤ maxbits := (ceillog2_le_iff positive).mpr below.2
    have result : countint key nums = (1, nums.modify (ceillog2 k) (· + 1)) := by
      rw [countint]
      simp only [same, Int.toNat_natCast]
      exact if_pos ⟨by exact_mod_cast positive, by exact_mod_cast below.2⟩
    rw [result, if_pos index]
    refine ⟨rfl, by rw [List.length_modify, slices], fun j le => ?_⟩
    have same_slice : ceillog2 k < j + 1 ↔ IndexBelow (2 ^ j) key := by
      rw [Nat.lt_succ_iff, ceillog2_le_iff positive, IndexBelow, same]
      norm_cast
      exact ⟨fun le => ⟨positive, le⟩, And.right⟩
    simp only [counted, sum_take_modify nums (i := ceillog2 k) (by omega), same_slice]
  · have result : countint key nums = (0, nums) := by
      refine if_neg fun counts => index ⟨counts.1, ?_⟩
      push_cast
      exact counts.2
    rw [result, if_neg index]
    refine ⟨rfl, slices, fun j le => ?_⟩
    have larger : 2 ^ j ≤ 2 ^ maxbits := Nat.pow_le_pow_right (by omega) le
    rw [if_neg fun small => index ⟨small.1, small.2.trans (by exact_mod_cast larger)⟩, Nat.add_zero]

theorem countP_drop_add {α : Type*} (p : α → Bool) (word : List α) {a b c : Nat} (ab : a ≤ b)
    (bc : b ≤ c) : ((word.take b).drop a).countP p + ((word.take c).drop b).countP p =
      ((word.take c).drop a).countP p := by
  have whole : (word.take c).drop a =
      ((word.take b).drop a) ++ ((word.take c).drop b) := by
    calc
      (word.take c).drop a =
          ((word.take c).drop a).take (b - a) ++ ((word.take c).drop a).drop (b - a) :=
        (List.take_append_drop _ _).symm
      _ = ((word.take b).drop a) ++ ((word.take c).drop b) := by
        rw [← List.drop_take, List.take_take, List.drop_drop, Nat.min_eq_left bc,
          Nat.add_sub_cancel' ab]
  rw [whole, List.countP_append]

theorem counted_zero (num : Nat) (nums : List Nat) : counted (num :: nums) 0 = num := by
  simp [counted]

theorem counted_succ (num : Nat) (nums : List Nat) (j : Nat) :
    counted (num :: nums) (j + 1) = num + counted nums j := by
  simp [counted]

/-- Slice after slice, `numusearray` counts the keys of the array part. -/
theorem numusearrayFrom_eq (array : List Value) (nums : List Nat) (ttlg i : Nat)
    (inside : i ≤ ttlg) (inside' : i ≤ array.length)
    (done : ttlg / 2 ≤ i ∨ array.length ≤ i) :
    (numusearrayFrom array nums ttlg (i + 1)).2.length = nums.length ∧
      (∀ j < nums.length, counted (numusearrayFrom array nums ttlg (i + 1)).2 j =
        counted nums j + ((array.take (ttlg * 2 ^ j)).drop i).countP (· ≠ .nil)) ∧
      (numusearrayFrom array nums ttlg (i + 1)).1 =
        ((array.take (ttlg * 2 ^ nums.length / 2)).drop i).countP (· ≠ .nil) := by
  induction nums generalizing ttlg i with
  | nil =>
      refine ⟨rfl, fun j below => by simp at below, ?_⟩
      have nothing : (array.take (ttlg * 2 ^ ([] : List Nat).length / 2)).drop i = [] := by
        refine List.drop_eq_nil_of_le ?_
        rw [List.length_take, List.length_nil, Nat.pow_zero, Nat.mul_one]
        omega
      rw [nothing]
      rfl
  | cons num nums induction =>
      set lim := if array.length < ttlg then array.length else ttlg with lim_eq
      have lim_min : lim = min ttlg array.length := by
        rw [lim_eq]
        split_ifs <;> omega
      have whole : array.take lim = array.take ttlg := by
        rw [lim_min, ← List.take_take, List.take_length]
      by_cases exhausted : array.length < ttlg ∧ lim < i + 1
      · have result : numusearrayFrom array (num :: nums) ttlg (i + 1) = (0, num :: nums) := by
          rw [numusearrayFrom]
          exact if_pos exhausted
        have nothing (c : Nat) : ((array.take c).drop i).countP (· ≠ .nil) = 0 := by
          rw [List.drop_eq_nil_of_le, List.countP_nil]
          rw [List.length_take]
          omega
        rw [result]
        refine ⟨rfl, fun j _ => ?_, (nothing _).symm⟩
        rw [nothing, Nat.add_zero]
      · have behind : max (i + 1) (lim + 1) = lim + 1 := by omega
        set lc := ((array.take lim).drop i).countP (· ≠ .nil) with lc_eq
        set rest := numusearrayFrom array nums (ttlg * 2) (lim + 1) with rest_eq
        have result : numusearrayFrom array (num :: nums) ttlg (i + 1) =
            (lc + rest.1, (num + lc) :: rest.2) := by
          rw [numusearrayFrom]
          refine (if_neg exhausted).trans ?_
          rw [behind]
          rfl
        obtain ⟨slices, later, total⟩ := induction (ttlg * 2) lim (by omega) (by omega) (by omega)
        have sum (c : Nat) (le : lim ≤ c) :
            lc + ((array.take c).drop lim).countP (· ≠ .nil) =
              ((array.take c).drop i).countP (· ≠ .nil) :=
          countP_drop_add _ array (by omega) le
        have grows (j : Nat) : lim ≤ ttlg * 2 ^ j := by
          have := Nat.le_mul_of_pos_right ttlg (Nat.two_pow_pos j)
          omega
        rw [result]
        refine ⟨by simpa using slices, fun j below => ?_, ?_⟩
        · cases j with
          | zero => rw [counted_zero, counted_zero, Nat.pow_zero, Nat.mul_one, ← whole]
          | succ j =>
              have slice := sum (ttlg * 2 ^ (j + 1)) (grows _)
              have double : ttlg * 2 * 2 ^ j = ttlg * 2 ^ (j + 1) := by ring
              rw [counted_succ, counted_succ, later j (by simpa using below), double, ← slice]
              omega
        · have half : ttlg * 2 * 2 ^ nums.length / 2 = ttlg * 2 ^ nums.length := by
            rw [Nat.mul_assoc, Nat.mul_comm 2, ← Nat.mul_assoc]
            exact Nat.mul_div_cancel _ (by omega)
          have half' : ttlg * 2 ^ (num :: nums).length / 2 = ttlg * 2 ^ nums.length := by
            rw [List.length_cons, Nat.pow_succ, ← Nat.mul_assoc]
            exact Nat.mul_div_cancel _ (by omega)
          rw [total, half, half']
          exact sum _ (grows _)

/-- `numusearray` counts the keys of the array part. -/
theorem numusearray_eq {array : List Value} (elements : array.length ≤ 2 ^ maxbits) :
    (numusearray array (List.replicate (maxbits + 1) 0)).2.length = maxbits + 1 ∧
      (∀ j ≤ maxbits, counted (numusearray array (List.replicate (maxbits + 1) 0)).2 j =
        arrayUse array (2 ^ j)) ∧
      (numusearray array (List.replicate (maxbits + 1) 0)).1 = array.countP (· ≠ .nil) := by
  obtain ⟨slices, later, total⟩ := numusearrayFrom_eq array (List.replicate (maxbits + 1) 0) 1 0
    (by omega) (by omega) (.inl (by omega))
  rw [List.length_replicate] at slices later total
  refine ⟨slices, fun j le => ?_, ?_⟩
  · rw [numusearray, later j (by omega), counted, arrayUse]
    simp
  · rw [numusearray, total, Nat.one_mul, Nat.pow_succ, Nat.mul_div_cancel _ (by omega),
      List.take_of_length_le elements, List.drop_zero]

/-- `numusehash` counts the keys of the hash part, and the integer keys among them. -/
theorem numusehash_eq (node : List Node) {nums : List Nat} (slices : nums.length = maxbits + 1) :
    (numusehash node nums).1 = hashTotal node ∧
      (numusehash node nums).2.1 = hashUse node (2 ^ maxbits) ∧
      (numusehash node nums).2.2.length = maxbits + 1 ∧
      ∀ j ≤ maxbits, counted (numusehash node nums).2.2 j = counted nums j + hashUse node (2 ^ j) := by
  induction node with
  | nil => exact ⟨rfl, rfl, slices, fun j _ => rfl⟩
  | cons n node induction =>
      obtain ⟨total, ause, slices', later⟩ := induction
      obtain ⟨one, slices'', more⟩ := countint_eq slices' n.key
      have step : numusehash (n :: node) nums = numusenode n (numusehash node nums) := rfl
      rw [step, numusenode, hashTotal, hashUse, List.countP_cons, List.countP_cons]
      by_cases value : n.val ≠ .nil
      · rw [if_pos value]
        refine ⟨?_, ?_, slices'', fun j le => ?_⟩
        · simp [total, hashTotal, value]
        · simp [ause, hashUse, one, value]
        · rw [more j le, later j le, hashUse, hashUse, List.countP_cons]
          simp [value]
          omega
      · rw [if_neg value]
        refine ⟨?_, ?_, slices', fun j le => ?_⟩
        · simp [total, hashTotal, value]
        · simp [ause, hashUse, value]
        · rw [later j le, hashUse, hashUse, List.countP_cons]
          simp [value]

/-! ## The size of the array part -/

/-- The array part is empty, or a power of two with more than half of its slots in use. -/
def HalfFull (nums : List Nat) (slices n na : Nat) : Prop :=
  (n = 0 ∧ na = 0) ∨ ∃ j < slices, n = 2 ^ j ∧ na = counted nums j ∧ 2 ^ j / 2 < na

/-- No larger power of two has more than half of its slots in use. -/
def Largest (nums : List Nat) (slices n : Nat) : Prop :=
  ∀ j < slices, 2 ^ j / 2 < counted nums j → 2 ^ j ≤ n

theorem counted_le_sum (nums : List Nat) (j : Nat) : counted nums j ≤ nums.sum := by
  have whole : (nums.take (j + 1)).sum + (nums.drop (j + 1)).sum = nums.sum := by
    rw [← List.sum_append, List.take_append_drop]
  rw [counted]
  omega

private theorem two_pow_half_le {i j : Nat} (lt : i < j) : 2 ^ i ≤ 2 ^ j / 2 := by
  obtain ⟨k, rfl⟩ := Nat.exists_eq_add_of_lt lt
  rw [Nat.pow_succ, Nat.mul_div_cancel _ (by omega)]
  exact Nat.pow_le_pow_right (by omega) (by omega)

/-- The loop of `computesizes` from a slice on, after the slices in `front`. -/
theorem computesizesFrom_eq {nums front rest : List Nat} {n na : Nat} (split : nums = front ++ rest)
    (unfinished : front = [] ∨ front.sum ≠ nums.sum)
    (half : HalfFull nums front.length n na)
    (largest : (∀ j < nums.length, counted nums j ≤ 2 ^ j) → Largest nums front.length n) :
    ∃ n' na', computesizesFrom nums.sum rest (2 ^ front.length) front.sum na n = some (n', na') ∧
      HalfFull nums nums.length n' na' ∧
      ((∀ j < nums.length, counted nums j ≤ 2 ^ j) → Largest nums nums.length n') := by
  have length_eq : nums.length = front.length + rest.length := by
    rw [split, List.length_append]
  have widen {slices n na : Nat} (le : slices ≤ nums.length) (half : HalfFull nums slices n na) :
      HalfFull nums nums.length n na := by
    rcases half with none_used | ⟨j, below, fit⟩
    · exact .inl none_used
    · exact .inr ⟨j, by omega, fit⟩
  induction rest generalizing front n na with
  | nil =>
      have whole : front = nums := by rw [split, List.append_nil]
      rw [computesizesFrom, if_neg]
      · subst whole
        exact ⟨n, na, rfl, half, largest⟩
      · subst whole
        rcases unfinished with empty | differ
        · rw [empty]
          decide
        · exact absurd rfl differ
  | cons num rest induction =>
      rw [List.length_cons] at length_eq
      rw [computesizesFrom]
      split_ifs with grows
      · have split' : nums = (front ++ [num]) ++ rest := by rw [split, List.append_assoc]; rfl
        have length' : (front ++ [num]).length = front.length + 1 := List.length_append
        have sum' : (front ++ [num]).sum = front.sum + num := by simp
        have upTo : counted nums front.length = front.sum + num := by
          rw [counted, split', List.take_left' length', sum']
        have before (empty : num = 0) (more : 2 ^ front.length / 2 < counted nums front.length)
            (capacity : ∀ j < nums.length, counted nums j ≤ 2 ^ j) : False := by
          rcases front.eq_nil_or_concat with none_yet | ⟨front', last, some_yet⟩
          · subst none_yet empty
            simp only [List.length_nil, List.sum_nil] at upTo more
            omega
          · have length_front : front.length = front'.length + 1 := by simp [some_yet]
            have same : counted nums front'.length = front.sum := by
              rw [counted, split, List.take_left' length_front]
            have bound := capacity front'.length (by omega)
            rw [length_front, Nat.pow_succ, Nat.mul_div_cancel _ (by omega), ← length_front] at more
            omega
        set fuller : Prop := 0 < num ∧ 2 ^ front.length / 2 < front.sum + num with fuller_eq
        set n' := if fuller then 2 ^ front.length else n with n_eq
        set na' := if fuller then front.sum + num else na with na_eq
        have half' : HalfFull nums (front.length + 1) n' na' := by
          by_cases more : fuller
          · rw [n_eq, na_eq, if_pos more, if_pos more]
            exact .inr ⟨front.length, by omega, rfl, upTo.symm, more.2⟩
          · rw [n_eq, na_eq, if_neg more, if_neg more]
            rcases half with none_used | ⟨j, below, fit⟩
            · exact .inl none_used
            · exact .inr ⟨j, by omega, fit⟩
        have largest' (capacity : ∀ j < nums.length, counted nums j ≤ 2 ^ j) :
            Largest nums (front.length + 1) n' := by
          intro j below fits
          rcases Nat.lt_succ_iff_lt_or_eq.mp below with earlier | rfl
          · have old := largest capacity j earlier fits
            have grows := Nat.pow_le_pow_right (n := 2) (by omega) earlier.le
            rw [n_eq]
            split_ifs
            · exact grows
            · exact old
          · have some_num : 0 < num := by
              refine Nat.pos_of_ne_zero fun empty => before empty fits capacity
            rw [n_eq, if_pos ⟨some_num, upTo ▸ fits⟩]
        change ∃ m ma, (if front.sum + num = nums.sum then some (n', na')
          else computesizesFrom nums.sum rest (2 ^ front.length * 2) (front.sum + num) na' n') =
            some (m, ma) ∧ _
        split_ifs with finished
        · refine ⟨n', na', rfl, widen (by omega) half', fun capacity j below fits => ?_⟩
          rcases Nat.lt_or_ge j (front.length + 1) with earlier | later
          · exact largest' capacity j earlier fits
          · have all := counted_le_sum nums j
            have bound := capacity front.length (by omega)
            have double := two_pow_half_le (i := front.length) (j := j) (by omega)
            omega
        · rw [← length'] at half' largest'
          have result := induction split' (.inr (sum' ▸ finished)) half' largest' (by omega)
          rw [length', sum', Nat.pow_succ] at result
          exact result
      · refine ⟨n, na, rfl, widen (by omega) half, fun capacity j below more => ?_⟩
        rcases Nat.lt_or_ge j front.length with before | behind
        · exact largest capacity j before more
        · have := counted_le_sum nums j
          have : 2 ^ front.length / 2 ≤ 2 ^ j / 2 :=
            Nat.div_le_div_right (Nat.pow_le_pow_right (by omega) behind)
          omega

/-- `computesizes` stays inside the counters and finds the largest array part that is more than half
full, provided the counters count different indices. -/
theorem computesizes_eq (nums : List Nat) : ∃ n na, computesizes nums nums.sum = some (n, na) ∧
    HalfFull nums nums.length n na ∧
      ((∀ j < nums.length, counted nums j ≤ 2 ^ j) → Largest nums nums.length n) := by
  refine computesizesFrom_eq (show nums = [] ++ nums from rfl) (.inl rfl) (.inl ⟨rfl, rfl⟩)
    fun _ j below => ?_
  rw [List.length_nil] at below
  omega

end LuaScript
