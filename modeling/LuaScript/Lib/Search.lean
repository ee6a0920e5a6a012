import Mathlib.Data.List.Infix
import Mathlib.Tactic.Common

/-!
# Searching for a separator

Positions of the first and the last occurrence of a word in another one.  For a separator of two
distinct symbols, occurrences never overlap, so a search finds the cut at which a word was put
together exactly when the separator is absent on the side that is searched first.
-/

namespace Search

variable {α : Type*}

/-! ## Separators -/

section Separator

variable {first second : α}

/-- A word does not occur where one of its symbols is absent. -/
theorem not_infix_of_notMem {symbol : α} {needle word : List α} (member : symbol ∈ needle)
    (absent : symbol ∉ word) : ¬needle <:+: word :=
  fun occurs => absent (occurs.subset member)

theorem pair_infix_cons {head : α} {tail : List α} :
    [first, second] <:+: head :: tail ↔
      (first = head ∧ tail.head? = some second) ∨ [first, second] <:+: tail := by
  rw [List.infix_cons_iff, List.cons_prefix_cons]
  cases tail with
  | nil => simp
  | cons next tail => simp [eq_comm]

/-- An occurrence in a concatenation lies on one side or across the seam. -/
theorem pair_infix_append {front back : List α} :
    [first, second] <:+: front ++ back ↔
      [first, second] <:+: front ∨
        (front.getLast? = some first ∧ back.head? = some second) ∨
        [first, second] <:+: back := by
  induction front with
  | nil => simp
  | cons head front induction =>
      rw [List.cons_append, pair_infix_cons, induction, pair_infix_cons]
      cases front with
      | nil => simp [eq_comm (a := first)]
      | cons next front => simp [or_assoc]

/-- The first occurrence. -/
theorem exists_first {word : List α} (occurs : [first, second] <:+: word) :
    ∃ front back, word = front ++ first :: second :: back ∧ ¬[first, second] <:+: front := by
  induction word with
  | nil => simp at occurs
  | cons head tail induction =>
      by_cases here : [first, second] <+: head :: tail
      · obtain ⟨back, whole⟩ := here
        exact ⟨[], back, by rw [← whole]; rfl, by simp⟩
      · obtain ⟨front, back, rfl, absent⟩ :=
          induction ((List.infix_cons_iff.mp occurs).resolve_left here)
        refine ⟨head :: front, back, rfl, ?_⟩
        rw [List.infix_cons_iff, not_or]
        refine ⟨fun earlier => here ?_, absent⟩
        exact earlier.trans (List.prefix_append (head :: front) _)

/-- The last occurrence. -/
theorem exists_last {word : List α} (occurs : [first, second] <:+: word) :
    ∃ front back, word = front ++ first :: second :: back ∧ ¬[first, second] <:+: back := by
  induction word with
  | nil => simp at occurs
  | cons head tail induction =>
      by_cases later : [first, second] <:+: tail
      · obtain ⟨front, back, rfl, absent⟩ := induction later
        exact ⟨head :: front, back, rfl, absent⟩
      · obtain ⟨back, whole⟩ := (List.infix_cons_iff.mp occurs).resolve_right later
        refine ⟨[], back, by rw [← whole]; rfl, fun inner => later ?_⟩
        obtain ⟨rfl, rfl⟩ : first = head ∧ second :: back = tail := by simpa using whole
        exact List.infix_cons inner

end Separator

/-! ## Searches -/

section Find

variable [DecidableEq α]

/-- Position of the first occurrence. -/
def find (needle : List α) : List α → Option Nat
  | [] => if needle = [] then some 0 else none
  | head :: tail =>
      if needle <+: head :: tail then some 0 else (find needle tail).map (· + 1)

/-- Position of the last occurrence. -/
def rfind (needle : List α) : List α → Option Nat
  | [] => if needle = [] then some 0 else none
  | head :: tail =>
      match rfind needle tail with
      | some position => some (position + 1)
      | none => if needle <+: head :: tail then some 0 else none

theorem find_eq_none_iff {needle word : List α} :
    find needle word = none ↔ ¬needle <:+: word := by
  induction word with
  | nil => simp [find]
  | cons head tail induction =>
      rw [find, List.infix_cons_iff, not_or, ← induction]
      split <;> simp [*]

theorem rfind_eq_none_iff {needle word : List α} :
    rfind needle word = none ↔ ¬needle <:+: word := by
  induction word with
  | nil => simp [rfind]
  | cons head tail induction =>
      rw [rfind, List.infix_cons_iff, not_or, ← induction]
      cases rfind needle tail <;> simp

variable {first second : α} (distinct : first ≠ second)

include distinct

/-- A search from the left stops at a cut that no earlier occurrence precedes. -/
theorem find_of_first {front back : List α} (absent : ¬[first, second] <:+: front) :
    find [first, second] (front ++ first :: second :: back) = some front.length := by
  induction front with
  | nil => simp [find]
  | cons head front induction =>
      rw [pair_infix_cons, not_or] at absent
      have elsewhere : ¬[first, second] <+: head :: (front ++ first :: second :: back) := by
        rw [List.cons_prefix_cons]
        rintro ⟨same, follows⟩
        cases front with
        | nil =>
            rw [List.nil_append, List.cons_prefix_cons] at follows
            exact distinct follows.1.symm
        | cons next front =>
            rw [List.cons_append, List.cons_prefix_cons] at follows
            exact absent.1 ⟨same, by rw [follows.1]; rfl⟩
      rw [List.cons_append, find, if_neg elsewhere, induction absent.2]
      rfl

/-- A search from the right stops at a cut that no later occurrence follows. -/
theorem rfind_of_last {front back : List α} (absent : ¬[first, second] <:+: back) :
    rfind [first, second] (front ++ first :: second :: back) = some front.length := by
  induction front with
  | nil =>
      have later : rfind [first, second] (second :: back) = none := by
        rw [rfind_eq_none_iff, pair_infix_cons]
        exact not_or.mpr ⟨fun same => distinct same.1, absent⟩
      rw [List.nil_append, rfind, later]
      simp
  | cons head front induction =>
      rw [List.cons_append, rfind, induction]
      rfl

end Find

end Search
