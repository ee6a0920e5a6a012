import LuaScript.Lib.Scan

/-!
# Escape codes without an escaped escape

Two families of escape codes that mark hidden symbols but leave literal copies of their own marks
alone: runs written between brackets, and single symbols written behind a marker.  In both, an
inserted group never fuses with the text around it, so decoding an escaped word is decoding the
word itself.  Such a code loses exactly the words that already contain a group.
-/

namespace Scan

open Fallible

variable {α ε : Type*}

theorem Matcher.scan_append_of_miss {β : Type*} (matcher : Matcher α β)
    (emit : β → Except ε (List α)) (front : List α)
    (miss : ∀ symbol ∈ front, ∀ tail, matcher.find (symbol :: tail) = none) (rest : List α) :
    matcher.scan emit (front ++ rest) = (front ++ ·) <$> matcher.scan emit rest := by
  induction front with
  | nil => simp
  | cons head front induction =>
      rw [List.cons_append, scan_miss _ _ (miss head List.mem_cons_self _),
        induction fun symbol member => miss symbol (List.mem_cons_of_mem _ member)]
      cases matcher.scan emit rest <;> rfl

/-! ## Bracketed runs -/

/-- Two brackets around a nonempty body over an alphabet that contains neither. -/
structure Brackets (α : Type*) where
  /-- Opening bracket. -/
  opening : α
  /-- Closing bracket. -/
  closing : α
  /-- Alphabet of the bodies. -/
  select : α → Bool
  /-- The opening bracket is not a body symbol. -/
  opening_reject : select opening = false
  /-- The closing bracket is not a body symbol. -/
  closing_reject : select closing = false
  /-- The brackets differ. -/
  opening_ne : opening ≠ closing

namespace Brackets

variable (brackets : Brackets α)

section Match

variable [DecidableEq α]

/-- The group at the head of a word: its body, and the rest. -/
def group : List α → Option (List α × List α)
  | [] => none
  | head :: tail =>
      match tail.takeWhile brackets.select, tail.dropWhile brackets.select with
      | symbol :: body, stop :: rest =>
          if head = brackets.opening ∧ stop = brackets.closing then some (symbol :: body, rest)
          else none
      | _, _ => none

theorem group_eq_some_iff {word body rest : List α} :
    brackets.group word = some (body, rest) ↔
      word = brackets.opening :: (body ++ brackets.closing :: rest) ∧ body ≠ [] ∧
        ∀ symbol ∈ body, brackets.select symbol = true := by
  constructor
  · intro hit
    cases word with
    | nil => simp [group] at hit
    | cons head tail =>
        have parts := List.takeWhile_append_dropWhile (p := brackets.select) (l := tail)
        rw [group] at hit
        split at hit
        · rename_i taken dropped
          split at hit
          · rename_i bracketed
            simp only [Option.some.injEq, Prod.mk.injEq] at hit
            obtain ⟨rfl, rfl⟩ := hit
            refine ⟨?_, by simp, fun symbol member => ?_⟩
            · rw [bracketed.1, ← bracketed.2, ← taken, ← dropped, parts]
            · rw [← taken] at member
              exact List.mem_takeWhile_imp member
          · simp at hit
        · simp at hit
  · rintro ⟨rfl, nonempty, selected⟩
    obtain ⟨symbol, body, rfl⟩ := List.exists_cons_of_ne_nil nonempty
    have taken : (symbol :: body ++ brackets.closing :: rest).takeWhile brackets.select =
        symbol :: body := by
      rw [List.takeWhile_append_of_pos selected,
        List.takeWhile_cons_of_neg (by simp [brackets.closing_reject]), List.append_nil]
    have dropped : (symbol :: body ++ brackets.closing :: rest).dropWhile brackets.select =
        brackets.closing :: rest := by
      rw [List.dropWhile_append_of_pos selected,
        List.dropWhile_cons_of_neg (by simp [brackets.closing_reject])]
    rw [group, taken, dropped]
    exact if_pos ⟨rfl, rfl⟩

/-- Recognize one group. -/
def matcher : Matcher α (List α) where
  find := brackets.group
  shrinks := by
    intro word body rest hit
    obtain ⟨rfl, -, -⟩ := brackets.group_eq_some_iff.mp hit
    simp only [List.length_cons, List.length_append]
    omega

theorem find_eq_some_iff {word body rest : List α} :
    brackets.matcher.find word = some (body, rest) ↔
      word = brackets.opening :: (body ++ brackets.closing :: rest) ∧ body ≠ [] ∧
        ∀ symbol ∈ body, brackets.select symbol = true :=
  brackets.group_eq_some_iff

theorem find_of_ne {head : α} (other : head ≠ brackets.opening) (tail : List α) :
    brackets.matcher.find (head :: tail) = none := by
  by_contra hit
  obtain ⟨⟨body, rest⟩, hit⟩ := Option.ne_none_iff_exists'.mp hit
  exact other (List.cons.inj (brackets.find_eq_some_iff.mp hit).1).1

/-- A word without a match is a word without a group as a factor. -/
theorem free_iff (word : List α) :
    brackets.matcher.Free word ↔ ¬∃ front body back,
      word = front ++ brackets.opening :: (body ++ brackets.closing :: back) ∧ body ≠ [] ∧
        ∀ symbol ∈ body, brackets.select symbol = true := by
  constructor
  · rintro free ⟨front, body, back, rfl, nonempty, selected⟩
    have hit : brackets.matcher.find _ = some (body, back) :=
      brackets.find_eq_some_iff.mpr ⟨rfl, nonempty, selected⟩
    rw [free _ (List.suffix_append front _)] at hit
    simp at hit
  · rintro absent suffix ⟨front, rfl⟩
    cases found : brackets.matcher.find suffix with
    | none => rfl
    | some result =>
        obtain ⟨body, back⟩ := result
        obtain ⟨rfl, nonempty, selected⟩ := brackets.find_eq_some_iff.mp found
        exact absurd ⟨front, body, back, rfl, nonempty, selected⟩ absent

end Match

/-- A coding of hidden runs into bodies: hidden symbols have no other role in a group. -/
structure Code (hide : α → Bool) (encode : List α → List α) : Prop where
  /-- The opening bracket is visible. -/
  opening_visible : hide brackets.opening = false
  /-- The closing bracket is visible. -/
  closing_visible : hide brackets.closing = false
  /-- Body symbols are visible. -/
  body_visible : ∀ symbol, brackets.select symbol = true → hide symbol = false
  /-- A nonempty run has a nonempty code. -/
  encode_ne_nil : ∀ run, run ≠ [] → encode run ≠ []
  /-- Codes are bodies. -/
  encode_select : ∀ run, ∀ symbol ∈ encode run, brackets.select symbol = true

/-- Write every maximal hidden run as the group of its code. -/
def escape (hide : α → Bool) (encode : List α → List α) : List α → List α :=
  (run hide).rewrite fun run => brackets.opening :: (encode run ++ [brackets.closing])

variable {brackets} {hide : α → Bool} {encode : List α → List α}

theorem escape_visible {head : α} (visible : hide head = false) (tail : List α) :
    brackets.escape hide encode (head :: tail) = head :: brackets.escape hide encode tail :=
  Matcher.rewrite_miss _ _ (run_find_of_reject visible)

theorem escape_hidden {head : α} (hidden : hide head = true) (tail : List α) :
    brackets.escape hide encode (head :: tail) =
      brackets.opening :: (encode (head :: tail.takeWhile hide) ++
        brackets.closing :: brackets.escape hide encode (tail.dropWhile hide)) := by
  rw [escape, Matcher.rewrite_hit _ _ (run_find_of_select hidden)]
  simp

theorem escape_append_of_visible {front : List α}
    (visible : ∀ symbol ∈ front, hide symbol = false) (rest : List α) :
    brackets.escape hide encode (front ++ rest) =
      front ++ brackets.escape hide encode rest := by
  induction front with
  | nil => rfl
  | cons head front induction =>
      rw [List.cons_append, escape_visible (visible head List.mem_cons_self),
        induction fun symbol member => visible symbol (List.mem_cons_of_mem _ member),
        List.cons_append]

theorem mem_escape_of_visible {symbol : α} (visible : hide symbol = false) {word : List α}
    (member : symbol ∈ word) : symbol ∈ brackets.escape hide encode word := by
  induction word using (run hide).scan_induction with
  | nil => simp at member
  | miss head tail found induction =>
      rw [escape, Matcher.rewrite_miss _ _ found]
      rcases List.mem_cons.mp member with rfl | member
      · exact List.mem_cons_self
      · exact List.mem_cons_of_mem _ (induction member)
  | hit word payload rest found induction =>
      obtain ⟨rfl, selected⟩ := run_find_eq_some found
      rw [escape, Matcher.rewrite_hit _ _ found]
      rcases List.mem_append.mp member with hidden | member
      · rw [selected symbol hidden] at visible
        simp at visible
      · exact List.mem_append_right _ (induction member)

theorem Code.visible_of_mem_escape (code : brackets.Code hide encode) {symbol : α}
    {word : List α} (member : symbol ∈ brackets.escape hide encode word) :
    hide symbol = false := by
  induction word using (run hide).scan_induction with
  | nil => simp [escape] at member
  | miss head tail found induction =>
      rw [escape, Matcher.rewrite_miss _ _ found] at member
      rcases List.mem_cons.mp member with rfl | member
      · by_contra hidden
        rw [run_find_of_select (Bool.not_eq_false _ ▸ hidden)] at found
        simp at found
      · exact induction member
  | hit word payload rest found induction =>
      rw [escape, Matcher.rewrite_hit _ _ found] at member
      simp only [List.cons_append, List.append_assoc, List.nil_append, List.mem_cons,
        List.mem_append] at member
      rcases member with rfl | body | rfl | member
      · exact code.opening_visible
      · exact code.body_visible symbol (code.encode_select payload symbol body)
      · exact code.closing_visible
      · exact induction member

theorem escape_congr {hide' : α → Bool} {word : List α}
    (same : ∀ symbol ∈ word, hide symbol = hide' symbol) :
    brackets.escape hide encode word = brackets.escape hide' encode word := by
  induction length : word.length using Nat.strong_induction_on generalizing word with
  | _ size induction =>
      subst length
      cases word with
      | nil => simp [escape]
      | cons head tail =>
          have head_same := same head List.mem_cons_self
          have tail_same : ∀ symbol ∈ tail, hide symbol = hide' symbol := fun symbol member =>
            same symbol (List.mem_cons_of_mem _ member)
          cases hidden : hide head with
          | false =>
              rw [escape_visible hidden, escape_visible (head_same ▸ hidden),
                induction tail.length (by simp) tail_same rfl]
          | true =>
              have dropped := (List.dropWhile_suffix hide (l := tail)).length_le
              have rest_same : ∀ symbol ∈ tail.dropWhile hide, hide symbol = hide' symbol :=
                fun symbol member => tail_same symbol
                  ((List.dropWhile_suffix hide (l := tail)).subset member)
              have taken : tail.takeWhile hide = tail.takeWhile hide' :=
                takeWhile_congr tail_same
              have remaining : tail.dropWhile hide = tail.dropWhile hide' := by
                rw [dropWhile_eq_drop, dropWhile_eq_drop, taken]
              rw [escape_hidden hidden, escape_hidden (head_same ▸ hidden),
                induction (tail.dropWhile hide).length (by rw [List.length_cons]; omega) rest_same
                  rfl, taken, remaining]

/-- A body and its closing bracket are found in an escaped word only where they were literal. -/
theorem literal_of_escape {word body rest : List α}
    (selected : ∀ symbol ∈ body, brackets.select symbol = true)
    (escaped : brackets.escape hide encode word = body ++ brackets.closing :: rest) :
    ∃ back, word = body ++ brackets.closing :: back := by
  induction body generalizing word with
  | nil =>
      cases word with
      | nil => simp [escape] at escaped
      | cons head tail =>
          cases hidden : hide head with
          | false =>
              rw [escape_visible hidden, List.nil_append, List.cons.injEq] at escaped
              exact ⟨tail, by rw [escaped.1, List.nil_append]⟩
          | true =>
              rw [escape_hidden hidden, List.nil_append, List.cons.injEq] at escaped
              exact absurd escaped.1 brackets.opening_ne
  | cons symbol body induction =>
      cases word with
      | nil => simp [escape] at escaped
      | cons head tail =>
          cases hidden : hide head with
          | false =>
              rw [escape_visible hidden, List.cons_append, List.cons.injEq] at escaped
              obtain ⟨back, rfl⟩ := induction
                (fun symbol member => selected symbol (List.mem_cons_of_mem _ member)) escaped.2
              exact ⟨back, by rw [escaped.1, List.cons_append]⟩
          | true =>
              rw [escape_hidden hidden, List.cons_append, List.cons.injEq] at escaped
              have inside := selected symbol List.mem_cons_self
              rw [← escaped.1, brackets.opening_reject] at inside
              simp at inside

theorem find_escape_eq_none [DecidableEq α] {head : α} {tail : List α}
    (found : brackets.matcher.find (head :: tail) = none) :
    brackets.matcher.find (head :: brackets.escape hide encode tail) = none := by
  by_contra hit
  obtain ⟨⟨body, rest⟩, hit⟩ := Option.ne_none_iff_exists'.mp hit
  obtain ⟨same, nonempty, selected⟩ := brackets.find_eq_some_iff.mp hit
  obtain ⟨rfl, escaped⟩ := List.cons.inj same
  obtain ⟨back, rfl⟩ := literal_of_escape selected escaped
  rw [brackets.find_eq_some_iff.mpr ⟨rfl, nonempty, selected⟩] at found
  simp at found

theorem Code.scan_append_of_hidden [DecidableEq α] (code : brackets.Code hide encode)
    (emit : List α → Except ε (List α)) {front : List α}
    (hidden : ∀ symbol ∈ front, hide symbol = true) (rest : List α) :
    brackets.matcher.scan emit (front ++ rest) =
      (front ++ ·) <$> brackets.matcher.scan emit rest := by
  refine Matcher.scan_append_of_miss _ _ front
    (fun symbol member rest => brackets.find_of_ne ?_ rest) _
  rintro rfl
  have visible := code.opening_visible
  rw [hidden _ member] at visible
  exact absurd visible (by simp)

/-- Scanning an escaped word is scanning the word, if codes are decoded to their runs. -/
theorem Code.scan_escape [DecidableEq α] (code : brackets.Code hide encode)
    {emit : List α → Except ε (List α)}
    (decodes : ∀ run, run ≠ [] → (∀ symbol ∈ run, hide symbol = true) →
      emit (encode run) = .ok run) (word : List α) :
    brackets.matcher.scan emit (brackets.escape hide encode word) =
      brackets.matcher.scan emit word := by
  induction length : word.length using Nat.strong_induction_on generalizing word with
  | _ size induction =>
      subst length
      cases word with
      | nil => simp [escape]
      | cons head tail =>
          cases hidden : hide head with
          | true =>
              -- an inserted group is read back as the run it stands for
              have dropped := (List.dropWhile_suffix hide (l := tail)).length_le
              have smaller := induction (tail.dropWhile hide).length
                (by rw [List.length_cons]; omega) _ rfl
              have run_hidden : ∀ symbol ∈ head :: tail.takeWhile hide, hide symbol = true := by
                intro symbol member
                rcases List.mem_cons.mp member with rfl | member
                · exact hidden
                · exact List.mem_takeWhile_imp member
              have literal : brackets.matcher.scan emit (head :: tail) =
                  ((head :: tail.takeWhile hide) ++ ·) <$>
                    brackets.matcher.scan emit (tail.dropWhile hide) := by
                rw [← code.scan_append_of_hidden emit run_hidden, List.cons_append,
                  List.takeWhile_append_dropWhile]
              rw [escape_hidden hidden, Matcher.scan_hit _ _ (brackets.find_eq_some_iff.mpr
                ⟨rfl, code.encode_ne_nil _ (by simp), code.encode_select _⟩),
                decodes _ (by simp) run_hidden, ok_bind, smaller, literal]
          | false =>
              rw [escape_visible hidden]
              cases found : brackets.matcher.find (head :: tail) with
              | some result =>
                  obtain ⟨body, rest⟩ := result
                  obtain ⟨same, nonempty, selected⟩ := brackets.find_eq_some_iff.mp found
                  obtain ⟨rfl, rfl⟩ := List.cons.inj same
                  have smaller := induction rest.length (by simp; omega) _ rfl
                  rw [escape_append_of_visible fun symbol member =>
                      code.body_visible symbol (selected symbol member),
                    escape_visible code.closing_visible,
                    Matcher.scan_hit _ _ (brackets.find_eq_some_iff.mpr ⟨rfl, nonempty, selected⟩),
                    Matcher.scan_hit _ _ found, smaller]
              | none =>
                  rw [Matcher.scan_miss _ _ (find_escape_eq_none found),
                    Matcher.scan_miss _ _ found,
                    induction tail.length (by simp) _ rfl]

end Brackets

/-! ## Marked symbols -/

/-- A marker in front of a fixed number of digits, none of which is the marker. -/
structure Marker (α : Type*) where
  /-- The marker. -/
  mark : α
  /-- The digits. -/
  select : α → Bool
  /-- The number of digits in a group. -/
  width : Nat
  /-- The marker is not a digit. -/
  mark_reject : select mark = false

namespace Marker

variable (marker : Marker α)

section Match

variable [DecidableEq α]

/-- The group at the head of a word: its digits, and the rest. -/
def group : List α → Option (List α × List α)
  | [] => none
  | head :: tail =>
      if head = marker.mark ∧ marker.width ≤ tail.length ∧
          (tail.take marker.width).all marker.select then
        some (tail.take marker.width, tail.drop marker.width)
      else none

theorem group_eq_some_iff {word digits rest : List α} :
    marker.group word = some (digits, rest) ↔
      word = marker.mark :: (digits ++ rest) ∧ digits.length = marker.width ∧
        ∀ symbol ∈ digits, marker.select symbol = true := by
  constructor
  · intro hit
    cases word with
    | nil => simp [group] at hit
    | cons head tail =>
        rw [group] at hit
        split at hit
        · rename_i marked
          simp only [Option.some.injEq, Prod.mk.injEq] at hit
          obtain ⟨rfl, rfl⟩ := hit
          refine ⟨by rw [marked.1, List.take_append_drop], ?_, List.all_eq_true.mp marked.2.2⟩
          rw [List.length_take]
          omega
        · simp at hit
  · rintro ⟨rfl, width, selected⟩
    have taken : (digits ++ rest).take marker.width = digits := by
      rw [← width, List.take_left]
    have dropped : (digits ++ rest).drop marker.width = rest := by
      rw [← width, List.drop_left]
    rw [group, taken, dropped]
    exact if_pos ⟨rfl, by rw [List.length_append]; omega, List.all_eq_true.mpr selected⟩

/-- Recognize one group. -/
def matcher : Matcher α (List α) where
  find := marker.group
  shrinks := by
    intro word digits rest hit
    obtain ⟨rfl, -, -⟩ := marker.group_eq_some_iff.mp hit
    simp only [List.length_cons, List.length_append]
    omega

theorem find_eq_some_iff {word digits rest : List α} :
    marker.matcher.find word = some (digits, rest) ↔
      word = marker.mark :: (digits ++ rest) ∧ digits.length = marker.width ∧
        ∀ symbol ∈ digits, marker.select symbol = true :=
  marker.group_eq_some_iff

/-- A word without a match is a word without a group as a factor. -/
theorem free_iff (word : List α) :
    marker.matcher.Free word ↔ ¬∃ front digits back,
      word = front ++ marker.mark :: (digits ++ back) ∧ digits.length = marker.width ∧
        ∀ symbol ∈ digits, marker.select symbol = true := by
  constructor
  · rintro free ⟨front, digits, back, rfl, width, selected⟩
    have hit : marker.matcher.find _ = some (digits, back) :=
      marker.find_eq_some_iff.mpr ⟨rfl, width, selected⟩
    rw [free _ (List.suffix_append front _)] at hit
    simp at hit
  · rintro absent suffix ⟨front, rfl⟩
    cases found : marker.matcher.find suffix with
    | none => rfl
    | some result =>
        obtain ⟨digits, back⟩ := result
        obtain ⟨rfl, width, selected⟩ := marker.find_eq_some_iff.mp found
        exact absurd ⟨front, digits, back, rfl, width, selected⟩ absent

end Match

/-- A coding of hidden symbols into digits: hidden symbols have no other role in a group. -/
structure Code (hide : α → Bool) (encode : α → List α) : Prop where
  /-- The marker is visible. -/
  mark_visible : hide marker.mark = false
  /-- Digits are visible. -/
  digit_visible : ∀ symbol, marker.select symbol = true → hide symbol = false
  /-- Codes have the width of a group. -/
  encode_length : ∀ symbol, (encode symbol).length = marker.width
  /-- Codes are made of digits. -/
  encode_select : ∀ symbol, ∀ digit ∈ encode symbol, marker.select digit = true

/-- Write every hidden symbol as the group of its code. -/
def escape (hide : α → Bool) (encode : α → List α) (word : List α) : List α :=
  word.flatMap fun symbol => if hide symbol then marker.mark :: encode symbol else [symbol]

variable {marker} {hide : α → Bool} {encode : α → List α}

theorem escape_visible {head : α} (visible : hide head = false) (tail : List α) :
    marker.escape hide encode (head :: tail) = head :: marker.escape hide encode tail := by
  simp [escape, visible]

theorem escape_hidden {head : α} (hidden : hide head = true) (tail : List α) :
    marker.escape hide encode (head :: tail) =
      marker.mark :: (encode head ++ marker.escape hide encode tail) := by
  simp [escape, hidden]

theorem escape_append_of_visible {front : List α}
    (visible : ∀ symbol ∈ front, hide symbol = false) (rest : List α) :
    marker.escape hide encode (front ++ rest) = front ++ marker.escape hide encode rest := by
  induction front with
  | nil => rfl
  | cons head front induction =>
      rw [List.cons_append, escape_visible (visible head List.mem_cons_self),
        induction fun symbol member => visible symbol (List.mem_cons_of_mem _ member),
        List.cons_append]

/-- Digits are found at the head of an escaped word only where they were literal. -/
theorem literal_of_escape {word digits rest : List α}
    (selected : ∀ symbol ∈ digits, marker.select symbol = true)
    (escaped : marker.escape hide encode word = digits ++ rest) :
    ∃ back, word = digits ++ back := by
  induction digits generalizing word with
  | nil => exact ⟨word, rfl⟩
  | cons symbol digits induction =>
      cases word with
      | nil => simp [escape] at escaped
      | cons head tail =>
          cases hidden : hide head with
          | false =>
              rw [escape_visible hidden, List.cons_append, List.cons.injEq] at escaped
              obtain ⟨back, rfl⟩ := induction
                (fun symbol member => selected symbol (List.mem_cons_of_mem _ member)) escaped.2
              exact ⟨back, by rw [escaped.1, List.cons_append]⟩
          | true =>
              rw [escape_hidden hidden, List.cons_append, List.cons.injEq] at escaped
              have inside := selected symbol List.mem_cons_self
              rw [← escaped.1, marker.mark_reject] at inside
              simp at inside

theorem find_escape_eq_none [DecidableEq α] {head : α} {tail : List α}
    (found : marker.matcher.find (head :: tail) = none) :
    marker.matcher.find (head :: marker.escape hide encode tail) = none := by
  by_contra hit
  obtain ⟨⟨digits, rest⟩, hit⟩ := Option.ne_none_iff_exists'.mp hit
  obtain ⟨same, width, selected⟩ := marker.find_eq_some_iff.mp hit
  obtain ⟨rfl, escaped⟩ := List.cons.inj same
  obtain ⟨back, rfl⟩ := literal_of_escape selected escaped
  rw [marker.find_eq_some_iff.mpr ⟨rfl, width, selected⟩] at found
  simp at found

theorem Code.find_of_hidden [DecidableEq α] (code : marker.Code hide encode) {head : α}
    (hidden : hide head = true) (tail : List α) : marker.matcher.find (head :: tail) = none := by
  by_contra hit
  obtain ⟨⟨digits, rest⟩, hit⟩ := Option.ne_none_iff_exists'.mp hit
  have same := (List.cons.inj (marker.find_eq_some_iff.mp hit).1).1
  rw [same, code.mark_visible] at hidden
  simp at hidden

/-- Scanning an escaped word is scanning the word, if codes are decoded to their symbols. -/
theorem Code.scan_escape [DecidableEq α] (code : marker.Code hide encode)
    {emit : List α → Except ε (List α)}
    (decodes : ∀ symbol, hide symbol = true → emit (encode symbol) = .ok [symbol])
    (word : List α) :
    marker.matcher.scan emit (marker.escape hide encode word) = marker.matcher.scan emit word := by
  induction length : word.length using Nat.strong_induction_on generalizing word with
  | _ size induction =>
      subst length
      cases word with
      | nil => simp [escape]
      | cons head tail =>
          have smaller := induction tail.length (by simp) tail rfl
          cases hidden : hide head with
          | true =>
              -- an inserted group is read back as the symbol it stands for
              rw [escape_hidden hidden, Matcher.scan_hit _ _ (marker.find_eq_some_iff.mpr
                ⟨rfl, code.encode_length head, code.encode_select head⟩), decodes head hidden,
                ok_bind, smaller, Matcher.scan_miss _ _ (code.find_of_hidden hidden tail)]
              rfl
          | false =>
              rw [escape_visible hidden]
              cases found : marker.matcher.find (head :: tail) with
              | some result =>
                  obtain ⟨digits, rest⟩ := result
                  obtain ⟨same, width, selected⟩ := marker.find_eq_some_iff.mp found
                  obtain ⟨rfl, rfl⟩ := List.cons.inj same
                  have shorter := induction rest.length
                    (by simp only [List.length_cons, List.length_append]; omega) _ rfl
                  rw [escape_append_of_visible fun symbol member =>
                      code.digit_visible symbol (selected symbol member),
                    Matcher.scan_hit _ _ (marker.find_eq_some_iff.mpr ⟨rfl, width, selected⟩),
                    Matcher.scan_hit _ _ found, shorter]
              | none =>
                  rw [Matcher.scan_miss _ _ (find_escape_eq_none found),
                    Matcher.scan_miss _ _ found, smaller]

end Marker

end Scan
