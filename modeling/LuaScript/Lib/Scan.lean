import LuaScript.Lib.Fallible
import Mathlib.Data.List.Infix
import Mathlib.Data.List.TakeWhile

/-!
# Leftmost scanning

A `Matcher` recognizes a nonempty prefix of a word.  `Matcher.scan` walks a word from left to
right, rewrites every match it meets by a fallible emitter and copies the other symbols.  Rewritten
text is never looked at again.  The main results say when a scan is the identity, and that a scan
by maximal runs visits each run exactly once.
-/

namespace Scan

open Fallible

variable {α β ε : Type*}

/-- A recognizer of nonempty prefixes. -/
structure Matcher (α β : Type*) where
  /-- Payload of the match at the head of the word, and the unread rest. -/
  find : List α → Option (β × List α)
  /-- A match reads at least one symbol. -/
  shrinks : ∀ {word payload rest}, find word = some (payload, rest) → rest.length < word.length

namespace Matcher

/-- Leftmost, non-overlapping rewriting of every match. -/
def scan (matcher : Matcher α β) (emit : β → Except ε (List α)) :
    List α → Except ε (List α)
  | [] => .ok []
  | head :: tail =>
      match _hit : matcher.find (head :: tail) with
      | some (payload, rest) => do
          let image ← emit payload
          let remaining ← matcher.scan emit rest
          return image ++ remaining
      | none => do
          let remaining ← matcher.scan emit tail
          return head :: remaining
termination_by word => word.length
decreasing_by
  · exact matcher.shrinks (by assumption)
  · simp

/-- Leftmost, non-overlapping rewriting by an emitter that never fails. -/
def rewrite (matcher : Matcher α β) (image : β → List α):
    List α → List α
  | [] => []
  | head :: tail =>
      match _hit : matcher.find (head :: tail) with
      | some (payload, rest) => image payload ++ matcher.rewrite image rest
      | none => head :: matcher.rewrite image tail
termination_by word => word.length
decreasing_by
  · exact matcher.shrinks (by assumption)
  · simp

variable (matcher : Matcher α β) (emit : β → Except ε (List α))

@[simp]
theorem scan_nil : matcher.scan emit [] = .ok [] := by
  rw [scan]

theorem scan_miss {head : α} {tail : List α} (miss : matcher.find (head :: tail) = none) :
    matcher.scan emit (head :: tail) = (head :: ·) <$> matcher.scan emit tail := by
  rw [scan]
  split
  · rename_i hit
    simp [miss] at hit
  · rfl

theorem scan_hit {word rest : List α} {payload : β}
    (hit : matcher.find word = some (payload, rest)) :
    matcher.scan emit word = (do
      let image ← emit payload
      (image ++ ·) <$> matcher.scan emit rest) := by
  cases word with
  | nil => exact absurd (matcher.shrinks hit) (by simp)
  | cons head tail =>
      rw [scan]
      split
      · rename_i found
        simp only [hit, Option.some.injEq, Prod.mk.injEq] at found
        obtain ⟨rfl, rfl⟩ := found
        rfl
      · rename_i missed
        simp [hit] at missed

/-- No match starts anywhere in the word. -/
def Free (word : List α) : Prop :=
  ∀ suffix, suffix <:+ word → matcher.find suffix = none

theorem free_cons {head : α} {tail : List α} :
    matcher.Free (head :: tail) ↔ matcher.find (head :: tail) = none ∧ matcher.Free tail := by
  constructor
  · intro free
    exact ⟨free _ List.suffix_rfl, fun suffix isSuffix =>
      free suffix (isSuffix.trans (List.suffix_cons head tail))⟩
  · rintro ⟨miss, free⟩ suffix isSuffix
    rcases List.suffix_cons_iff.mp isSuffix with rfl | isSuffix
    · exact miss
    · exact free suffix isSuffix

theorem scan_of_free {word : List α} (free : matcher.Free word) :
    matcher.scan emit word = .ok word := by
  induction word with
  | nil => simp
  | cons head tail induction =>
      obtain ⟨miss, free⟩ := (matcher.free_cons).mp free
      rw [scan_miss matcher emit miss, induction free]
      rfl

variable (image : β → List α)

@[simp]
theorem rewrite_nil : matcher.rewrite image [] = [] := by
  rw [rewrite]

theorem rewrite_miss {head : α} {tail : List α} (miss : matcher.find (head :: tail) = none) :
    matcher.rewrite image (head :: tail) = head :: matcher.rewrite image tail := by
  rw [rewrite]
  split
  · rename_i hit
    simp [miss] at hit
  · rfl

theorem rewrite_hit {word rest : List α} {payload : β}
    (hit : matcher.find word = some (payload, rest)) :
    matcher.rewrite image word = image payload ++ matcher.rewrite image rest := by
  cases word with
  | nil => exact absurd (matcher.shrinks hit) (by simp)
  | cons head tail =>
      rw [rewrite]
      split
      · rename_i found
        simp only [hit, Option.some.injEq, Prod.mk.injEq] at found
        obtain ⟨rfl, rfl⟩ := found
        rfl
      · rename_i missed
        simp [hit] at missed

/-- Induction along the positions a scan visits. -/
theorem scan_induction {motive : List α → Prop} (nil : motive [])
    (miss : ∀ head tail, matcher.find (head :: tail) = none → motive tail →
      motive (head :: tail))
    (hit : ∀ word payload rest, matcher.find word = some (payload, rest) → motive rest →
      motive word) (word : List α) : motive word := by
  induction length : word.length using Nat.strong_induction_on generalizing word with
  | _ size induction =>
      subst length
      cases word with
      | nil => exact nil
      | cons head tail =>
          cases found : matcher.find (head :: tail) with
          | none => exact miss head tail found (induction tail.length (by simp) tail rfl)
          | some result =>
              obtain ⟨payload, rest⟩ := result
              exact hit _ _ _ found (induction _ (matcher.shrinks found) _ rfl)

/-- A scan whose emitter never fails is a rewriting. -/
theorem scan_eq_rewrite {emit : β → Except ε (List α)} (image : β → List α)
    (total : ∀ word payload rest, matcher.find word = some (payload, rest) →
      emit payload = .ok (image payload)) (word : List α) :
    matcher.scan emit word = .ok (matcher.rewrite image word) := by
  induction word using matcher.scan_induction with
  | nil => simp
  | miss head tail found induction =>
      rw [scan_miss matcher emit found, rewrite_miss matcher image found, induction, ok_map]
  | hit word payload rest found induction =>
      rw [scan_hit matcher emit found, rewrite_hit matcher image found, induction,
        total word payload rest found, ok_bind, ok_map]

/-- The emitter writes strictly less than the match read. -/
def Shortening : Prop :=
  ∀ word payload rest image, matcher.find word = some (payload, rest) →
    emit payload = .ok image → image.length + rest.length < word.length

variable {matcher emit}

/-- A shortening scan never lengthens its word, and keeps its length only without a match. -/
theorem Shortening.length_le (shortening : matcher.Shortening emit) (word : List α) :
    ∀ image, matcher.scan emit word = .ok image →
      image.length ≤ word.length ∧ (image.length = word.length → matcher.Free word) := by
  induction word using matcher.scan_induction with
  | nil =>
      intro image scanned
      obtain rfl : [] = image := by simpa using scanned
      refine ⟨le_rfl, fun _ suffix isSuffix => ?_⟩
      obtain rfl := List.suffix_nil.mp isSuffix
      cases found : matcher.find [] with
      | none => rfl
      | some result =>
          obtain ⟨payload, rest⟩ := result
          exact absurd (matcher.shrinks found) (by simp)
  | miss head tail found induction =>
      intro image scanned
      rw [scan_miss matcher emit found, map_eq_ok] at scanned
      obtain ⟨remaining, inner, rfl⟩ := scanned
      have smaller := induction remaining inner
      refine ⟨by simpa using smaller.1, fun same => ?_⟩
      exact (matcher.free_cons).mpr ⟨found, smaller.2 (by simpa using same)⟩
  | hit word payload rest found induction =>
      intro image scanned
      rw [scan_hit matcher emit found, bind_eq_ok] at scanned
      obtain ⟨front, written, scanned⟩ := scanned
      obtain ⟨remaining, inner, rfl⟩ := map_eq_ok.mp scanned
      have shorter := shortening _ payload rest front found written
      have total : (front ++ remaining).length < word.length := by
        have smaller := (induction remaining inner).1
        rw [List.length_append]
        omega
      exact ⟨total.le, fun same => absurd same total.ne⟩

/-- A shortening scan is the identity exactly on the words without a match. -/
theorem Shortening.scan_eq_self_iff (shortening : matcher.Shortening emit) (word : List α) :
    matcher.scan emit word = .ok word ↔ matcher.Free word :=
  ⟨fun scanned => (shortening.length_le word word scanned).2 rfl, scan_of_free matcher emit⟩

end Matcher

/-! ## Maximal runs -/

theorem dropWhile_eq_drop (select : α → Bool) (word : List α) :
    word.dropWhile select = word.drop (word.takeWhile select).length := by
  calc
    word.dropWhile select =
        (word.takeWhile select ++ word.dropWhile select).drop (word.takeWhile select).length :=
      List.drop_left.symm
    _ = word.drop (word.takeWhile select).length := by rw [List.takeWhile_append_dropWhile]

theorem takeWhile_congr {select select' : α → Bool} {word : List α}
    (same : ∀ symbol ∈ word, select symbol = select' symbol) :
    word.takeWhile select = word.takeWhile select' := by
  induction word with
  | nil => rfl
  | cons head tail induction =>
      rw [List.takeWhile_cons, List.takeWhile_cons, same head List.mem_cons_self,
        induction fun symbol member => same symbol (List.mem_cons_of_mem _ member)]

section Runs

variable (select : α → Bool)

/-- Recognize a maximal nonempty run of selected symbols. -/
def run : Matcher α (List α) where
  find word :=
    match word.takeWhile select with
    | [] => none
    | head :: front => some (head :: front, word.dropWhile select)
  shrinks := by
    intro word payload rest hit
    have lengths := congrArg List.length (List.takeWhile_append_dropWhile (p := select) (l := word))
    split at hit
    · simp at hit
    · rename_i taken
      simp only [Option.some.injEq, Prod.mk.injEq] at hit
      obtain ⟨rfl, rfl⟩ := hit
      simp only [taken, List.length_append, List.length_cons] at lengths
      omega

variable {select}

theorem run_find_of_reject {head : α} {tail : List α} (reject : select head = false) :
    (run select).find (head :: tail) = none := by
  simp [run, reject]

theorem run_find_of_select {head : α} {tail : List α} (accept : select head = true) :
    (run select).find (head :: tail) =
      some (head :: tail.takeWhile select, tail.dropWhile select) := by
  simp [run, accept]

theorem run_find_eq_some {word payload rest : List α}
    (hit : (run select).find word = some (payload, rest)) :
    word = payload ++ rest ∧ ∀ symbol ∈ payload, select symbol = true := by
  simp only [run] at hit
  split at hit
  · simp at hit
  · rename_i taken
    simp only [Option.some.injEq, Prod.mk.injEq] at hit
    obtain ⟨rfl, rfl⟩ := hit
    rw [← taken, List.takeWhile_append_dropWhile]
    exact ⟨rfl, fun symbol member => List.mem_takeWhile_imp member⟩

/-- Erasing the runs filters the word. -/
theorem run_rewrite_nil (word : List α) :
    (run select).rewrite (fun _ => []) word = word.filter (!select ·) := by
  induction word using (run select).scan_induction with
  | nil => simp
  | miss head tail found induction =>
      have reject : select head = false := by
        by_contra accept
        simp [run_find_of_select (Bool.not_eq_false _ ▸ accept)] at found
      rw [Matcher.rewrite_miss _ _ found, induction, List.filter_cons_of_pos (by simp [reject])]
  | hit word payload rest found induction =>
      obtain ⟨split_eq, selected⟩ := run_find_eq_some found
      have erased : payload.filter (!select ·) = [] :=
        List.filter_eq_nil_iff.mpr fun symbol member => by simp [selected symbol member]
      rw [Matcher.rewrite_hit _ _ found, induction, split_eq, List.filter_append, erased]

/-- Recognize one selected symbol. -/
def one (select : α → Bool) : Matcher α α where
  find
    | [] => none
    | head :: tail => if select head then some (head, tail) else none
  shrinks := by
    intro word payload rest hit
    cases word with
    | nil => simp at hit
    | cons head tail =>
        by_cases accept : select head
        · simp only [accept, if_true, Option.some.injEq, Prod.mk.injEq] at hit
          simp [hit.2]
        · simp [accept] at hit

/-- Rewriting single symbols works symbol by symbol. -/
theorem one_rewrite (image : α → List α) (word : List α) :
    (one select).rewrite image word =
      word.flatMap fun symbol => if select symbol then image symbol else [symbol] := by
  induction word with
  | nil => simp
  | cons head tail induction =>
      cases accept : select head with
      | true =>
          have hit : (one select).find (head :: tail) = some (head, tail) := by simp [one, accept]
          rw [Matcher.rewrite_hit _ _ hit, induction]
          simp [accept]
      | false =>
          rw [Matcher.rewrite_miss _ _ (by simp [one, accept]), induction]
          simp [accept]

end Runs

end Scan
