import LuaScript.Lib.Escape

/-!
# Pieces of a bracketed text

Bracketed groups never overlap, so a word is cut into symbols and groups in one way only: every
group that occurs anywhere in it is a piece.  A scan emits the pieces one after the other, which
says what the scan of an arbitrary text is, and when it fails.
-/

namespace Scan

open Fallible

variable {α ε : Type*}

namespace Brackets

variable (brackets : Brackets α)

/-- A piece of a word. -/
inductive Piece (α : Type*) where
  /-- A symbol outside every group. -/
  | symbol (symbol : α)
  /-- A group with its body. -/
  | group (body : List α)

/-- The text that a piece stands for. -/
def text : Piece α → List α
  | .symbol symbol => [symbol]
  | .group body => brackets.opening :: (body ++ [brackets.closing])

/-- The word is made of pieces, and every group that occurs in it anywhere is one of them. -/
structure Cut (word : List α) (pieces : List (Piece α)) : Prop where
  /-- The pieces make up the word. -/
  whole : word = pieces.flatMap brackets.text
  /-- Groups have a nonempty body of selected symbols. -/
  valid : ∀ body, .group body ∈ pieces →
    body ≠ [] ∧ ∀ symbol ∈ body, brackets.select symbol = true
  /-- An occurrence of a group is a piece. -/
  complete : ∀ front body back,
    word = front ++ brackets.opening :: (body ++ brackets.closing :: back) → body ≠ [] →
      (∀ symbol ∈ body, brackets.select symbol = true) →
        ∃ before after, pieces = before ++ .group body :: after ∧
          before.flatMap brackets.text = front ∧ after.flatMap brackets.text = back

variable {brackets}

theorem text_ne_nil (piece : Piece α) : brackets.text piece ≠ [] := by
  cases piece <;> simp [text]

/-- Two groups at different places of a word do not overlap. -/
theorem group_disjoint {body rest front body' back : List α}
    (selected : ∀ symbol ∈ body, brackets.select symbol = true)
    (same : brackets.opening :: (body ++ brackets.closing :: rest) =
      front ++ brackets.opening :: (body' ++ brackets.closing :: back)) (later : front ≠ []) :
    ∃ between, front = brackets.text (.group body) ++ between ∧
      rest = between ++ brackets.opening :: (body' ++ brackets.closing :: back) := by
  obtain ⟨head, front, rfl⟩ := List.exists_cons_of_ne_nil later
  rw [List.cons_append, List.cons.injEq] at same
  obtain ⟨rfl, same⟩ := same
  rcases List.append_eq_append_iff.mp same with ⟨between, rfl, tail_eq⟩ | ⟨between, rfl, tail_eq⟩
  · cases between with
    | nil =>
        rw [List.nil_append, List.cons.injEq] at tail_eq
        exact absurd tail_eq.1 brackets.opening_ne.symm
    | cons head between =>
        rw [List.cons_append, List.cons.injEq] at tail_eq
        obtain ⟨rfl, rfl⟩ := tail_eq
        exact ⟨between, by simp [text], rfl⟩
  · -- an opening bracket inside the body
    cases between with
    | nil =>
        rw [List.nil_append, List.cons.injEq] at tail_eq
        exact absurd tail_eq.1 brackets.opening_ne
    | cons head between =>
        rw [List.cons_append, List.cons.injEq] at tail_eq
        have inside := selected head (by simp)
        rw [← tail_eq.1, brackets.opening_reject] at inside
        cases inside

/-- The rest of a cut is a cut of the rest. -/
theorem Cut.tail {word : List α} {piece : Piece α} {pieces : List (Piece α)}
    (cut : brackets.Cut word (piece :: pieces)) :
    brackets.Cut (pieces.flatMap brackets.text) pieces where
  whole := rfl
  valid body member := cut.valid body (List.mem_cons_of_mem _ member)
  complete front body back whole nonempty selected := by
    have whole' : word =
        (brackets.text piece ++ front) ++
          brackets.opening :: (body ++ brackets.closing :: back) := by
      rw [cut.whole, List.flatMap_cons, whole, List.append_assoc]
    obtain ⟨before, after, same, front_eq, back_eq⟩ :=
      cut.complete _ _ _ whole' nonempty selected
    cases before with
    | nil =>
        obtain ⟨piece_nil, -⟩ := List.append_eq_nil_iff.mp front_eq.symm
        exact absurd piece_nil (text_ne_nil piece)
    | cons first before =>
        rw [List.cons_append, List.cons.injEq] at same
        obtain ⟨rfl, rfl⟩ := same
        rw [List.flatMap_cons] at front_eq
        exact ⟨before, after, rfl, List.append_cancel_left front_eq, back_eq⟩

/-- What an emitter writes for a piece. -/
def emitPiece (emit : List α → Except ε (List α)) : Piece α → Except ε (List α)
  | .symbol symbol => .ok [symbol]
  | .group body => emit body

section Match

variable [DecidableEq α]

/-- Every word is cut into pieces by the matcher. -/
theorem exists_cut (word : List α) : ∃ pieces, brackets.Cut word pieces := by
  induction word using brackets.matcher.scan_induction with
  | nil => exact ⟨[], rfl, by simp, by simp⟩
  | miss head tail found induction =>
      obtain ⟨pieces, cut⟩ := induction
      refine ⟨.symbol head :: pieces, ?_, ?_, ?_⟩
      · rw [List.flatMap_cons, ← cut.whole]
        rfl
      · intro body member
        exact cut.valid body (by simpa using member)
      · intro front body back whole nonempty selected
        cases front with
        | nil =>
            rw [brackets.find_eq_some_iff.mpr ⟨whole, nonempty, selected⟩] at found
            cases found
        | cons symbol front =>
            rw [List.cons_append, List.cons.injEq] at whole
            obtain ⟨rfl, whole⟩ := whole
            obtain ⟨before, after, rfl, rfl, rfl⟩ := cut.complete _ _ _ whole nonempty selected
            exact ⟨.symbol head :: before, after, rfl, rfl, rfl⟩
  | hit word body rest found induction =>
      obtain ⟨pieces, cut⟩ := induction
      obtain ⟨rfl, body_nonempty, body_selected⟩ := brackets.find_eq_some_iff.mp found
      refine ⟨.group body :: pieces, ?_, ?_, ?_⟩
      · rw [List.flatMap_cons, ← cut.whole]
        simp [text]
      · intro body' member
        rcases List.mem_cons.mp member with same | member
        · cases same
          exact ⟨body_nonempty, body_selected⟩
        · exact cut.valid body' member
      · intro front body' back whole nonempty selected
        cases front with
        | nil =>
            have other := brackets.find_eq_some_iff.mpr ⟨whole, nonempty, selected⟩
            rw [found] at other
            cases other
            exact ⟨[], pieces, rfl, rfl, cut.whole.symm⟩
        | cons symbol front =>
            obtain ⟨between, front_eq, whole'⟩ :=
              group_disjoint body_selected whole (List.cons_ne_nil _ _)
            obtain ⟨before, after, rfl, rfl, rfl⟩ := cut.complete _ _ _ whole' nonempty selected
            exact ⟨.group body :: before, after, rfl, front_eq.symm, rfl⟩

/-- A scan emits the pieces of its word in order. -/
theorem Cut.scan_eq {word : List α} {pieces : List (Piece α)} (cut : brackets.Cut word pieces)
    (emit : List α → Except ε (List α)) :
    brackets.matcher.scan emit word = List.flatten <$> pieces.mapM (emitPiece emit) := by
  induction pieces generalizing word with
  | nil =>
      obtain rfl : word = [] := cut.whole
      rw [Matcher.scan_nil]
      rfl
  | cons piece pieces induction =>
      have whole := cut.whole
      rw [List.flatMap_cons] at whole
      have remaining := induction cut.tail
      have first : brackets.matcher.scan emit word = (do
          let image ← emitPiece emit piece
          (image ++ ·) <$> brackets.matcher.scan emit (pieces.flatMap brackets.text)) := by
        cases piece with
        | symbol symbol =>
            have missed : brackets.matcher.find word = none := by
              by_contra hit
              obtain ⟨⟨body, rest⟩, hit⟩ := Option.ne_none_iff_exists'.mp hit
              obtain ⟨same, nonempty, selected⟩ := brackets.find_eq_some_iff.mp hit
              obtain ⟨before, after, whole', front_eq, -⟩ :=
                cut.complete [] body rest same nonempty selected
              cases before with
              | nil => cases whole'
              | cons first before =>
                  rw [List.flatMap_cons, List.append_eq_nil_iff] at front_eq
                  exact text_ne_nil first front_eq.1
            rw [whole] at missed ⊢
            exact Matcher.scan_miss _ _ missed
        | group body =>
            obtain ⟨nonempty, selected⟩ := cut.valid body List.mem_cons_self
            exact Matcher.scan_hit _ _ (brackets.find_eq_some_iff.mpr
              ⟨by rw [whole]; simp [text], nonempty, selected⟩)
      rw [first, remaining, List.mapM_cons]
      cases emitPiece emit piece with
      | error message => rfl
      | ok image =>
          rw [ok_bind, ok_bind]
          cases pieces.mapM (emitPiece emit) <;> rfl

end Match

end Brackets

end Scan
