import LuaScript.Lib.Fallible
import Mathlib.Tactic.Ring

/-!
# Regrouping bits

Words of bits with the most significant bit first.  A word is regrouped by cutting it into groups
of a fixed width and reading each group as a number, with zeros behind the end of the word.
-/

namespace Bits

open Fallible

/-- The number that a word denotes. -/
def value (bits : List Bool) : Nat := bits.foldl (fun value bit => 2 * value + bit.toNat) 0

/-- The last `width` bits of a number. -/
def word (width n : Nat) : List Bool :=
  (List.range width).map fun k => n.testBit (width - 1 - k)

/-- The numbers denoted by the groups of `width` bits. -/
def regroup (width : Nat) (bits : List Bool) : List Nat :=
  (offsets width bits.length).map fun start =>
    value ((List.range width).map fun k => bits.getD (start + k) false)

/-! ## Numbers -/

theorem foldl_value (bits : List Bool) (start : Nat) :
    bits.foldl (fun value bit => 2 * value + bit.toNat) start =
      start * 2 ^ bits.length + value bits := by
  induction bits generalizing start with
  | nil => simp [value]
  | cons bit bits induction =>
      rw [value, List.foldl_cons, List.foldl_cons, induction, induction (2 * 0 + bit.toNat),
        List.length_cons, Nat.pow_succ]
      ring

theorem value_append (front back : List Bool) :
    value (front ++ back) = value front * 2 ^ back.length + value back := by
  rw [value, List.foldl_append, foldl_value]
  rfl

theorem value_replicate_false (count : Nat) : value (List.replicate count false) = 0 := by
  induction count with
  | zero => rfl
  | succ count induction =>
      rw [List.replicate_succ', value_append, induction]
      rfl

@[simp]
theorem length_word (width n : Nat) : (word width n).length = width := by
  simp [word]

/-- The bits of a number are its high bits and its low bits. -/
theorem word_add (high low n : Nat) :
    word (high + low) n = word high (n / 2 ^ low) ++ word low n := by
  rw [word, List.range_add, List.map_append, List.map_map]
  congr 1
  · apply List.map_congr_left
    intro k member
    have inside := List.mem_range.mp member
    rw [Nat.testBit_div_two_pow]
    congr 1
    omega
  · apply List.map_congr_left
    intro k member
    simp only [Function.comp_apply]
    congr 1
    omega

theorem value_word (width n : Nat) : value (word width n) = n % 2 ^ width := by
  induction width with
  | zero => simp [word, value, Nat.mod_one]
  | succ width induction =>
      have top : value (word 1 (n / 2 ^ width)) = n / 2 ^ width % 2 := by
        simp only [value, word, List.range_one, List.map_cons, List.map_nil, List.foldl_cons,
          List.foldl_nil, Nat.sub_self, Nat.testBit_zero]
        rcases Nat.mod_two_eq_zero_or_one (n / 2 ^ width) with even | odd
        · simp [even]
        · simp [odd]
      rw [Nat.add_comm, word_add, value_append, induction, top, length_word, Nat.add_comm 1,
        Nat.mod_pow_succ]
      ring

/-! ## Groups -/

/-- The first group is cut off. -/
theorem regroup_append {width : Nat} (width_pos : 0 < width) {front : List Bool}
    (whole : front.length = width) (back : List Bool) :
    regroup width (front ++ back) = value front :: regroup width back := by
  have total : (front ++ back).length = width + back.length := by
    rw [List.length_append, whole]
  have first : (List.range width).map (fun k => (front ++ back).getD (0 + k) false) = front := by
    apply List.ext_getElem
    · simp [whole]
    · intro k inside inside'
      simp [List.getElem?_append_left inside', List.getElem?_eq_getElem inside']
  rw [regroup, total, offsets_succ width_pos (by omega), List.map_cons, first, List.map_map,
    Nat.add_sub_cancel_left, regroup]
  congr 1
  apply List.map_congr_left
  intro start member
  simp only [Function.comp_apply]
  congr 1
  apply List.map_congr_left
  intro k member
  rw [List.getD_eq_getElem?_getD, List.getD_eq_getElem?_getD,
    List.getElem?_append_right (by omega)]
  congr 2
  omega

/-- The last group is filled with zeros. -/
theorem regroup_last {width : Nat} {bits : List Bool} (nonempty : 0 < bits.length)
    (short : bits.length ≤ width) :
    regroup width bits = [value bits * 2 ^ (width - bits.length)] := by
  have filled : (List.range width).map (fun k => bits.getD (0 + k) false) =
      bits ++ List.replicate (width - bits.length) false := by
    apply List.ext_getElem
    · simp only [List.length_map, List.length_range, List.length_append, List.length_replicate]
      omega
    · intro k inside inside'
      rw [List.getElem_map, List.getElem_range, Nat.zero_add, List.getElem_append,
        List.getD_eq_getElem?_getD]
      split
      · rename_i early
        rw [List.getElem?_eq_getElem early, Option.getD_some]
      · rename_i late
        rw [List.getElem?_eq_none (by omega), List.getElem_replicate, Option.getD_none]
  rw [regroup, offsets_succ (by omega) nonempty, Nat.sub_eq_zero_of_le short, offsets_zero,
    List.map_nil, List.map_singleton, filled, value_append, value_replicate_false,
    List.length_replicate, Nat.add_zero]

@[simp]
theorem regroup_nil (width : Nat) : regroup width [] = [] := by
  simp [regroup]

end Bits
