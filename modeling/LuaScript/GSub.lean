import LuaScript.Pattern
import LuaScript.Lib.Escape

/-!
# Global substitution

`string.gsub` over the matcher, and its reading as a leftmost scan.  The scripts substitute with
six patterns; each is shown to find what its `Scan.Matcher` finds.
-/

namespace LuaScript

open Fallible Scan

/-! ## `string.gsub` -/

/-- A value that `push_onecapture` pushes. -/
inductive CapValue where
  /-- A substring of the subject. -/
  | text (s : Bytes)
  /-- A position capture. -/
  | position (i : Nat)
  deriving DecidableEq

/-- The text of a captured value, by `lua_tolstring`. -/
def CapValue.toText : CapValue → Bytes
  | .text s => s
  | .position i => decimal i

/-- The text between two pointers into the subject. -/
def between (s e : Bytes) : Bytes := s.take (s.length - e.length)

@[simp]
theorem between_append (front rest : Bytes) : between (front ++ rest) rest = front := by
  simp [between]

/-- `push_onecapture` for a match from `s` to `e`. -/
def pushOnecapture (ms : MatchState) (i : Nat) (s e : Bytes) : Lua CapValue :=
  match ms.capture[i]? with
  | none =>
      if i = 0 then .ok (.text (between s e)) else .error (bytes "invalid capture index")
  | some { len := .unfinished, .. } => .error (bytes "unfinished capture")
  | some { init, len := .position } => .ok (.position (ms.srcInit.length - init.length + 1))
  | some { init, len := .closed len } => .ok (.text (init.take len))

/-- `push_captures`: all the captures, or the whole match when there is none. -/
def pushCaptures (ms : MatchState) (s e : Bytes) : Lua (List CapValue) :=
  (List.range (max ms.level 1)).mapM fun i => pushOnecapture ms i s e

/-- The third argument of `gsub`. -/
inductive Repl where
  /-- A replacement string with `%` escapes. -/
  | string (news : Bytes)
  /-- A function of the captures; no value, `nil` and `false` are `none`. -/
  | function (f : List CapValue → Lua (Option Bytes))

/-- The loop of `add_s`. -/
def addS (ms : MatchState) (s e : Bytes) : Bytes → Lua Bytes
  | [] => .ok []
  | [c] => .ok [if c = ch '%' then 0 else c]
  | c :: d :: news => do
      if c ≠ ch '%' then return c :: (← addS ms s e (d :: news))
      else if !isdigit d then return d :: (← addS ms s e news)
      else if d = ch '0' then return between s e ++ (← addS ms s e news)
      else
        let value ← pushOnecapture ms (d.toNat - 49) s e
        return value.toText ++ (← addS ms s e news)

/-- `add_value`: what one match from `s` to `e` adds to the buffer. -/
def addValue (ms : MatchState) (repl : Repl) (s e : Bytes) : Lua Bytes :=
  match repl with
  | .string news => addS ms s e news
  | .function f => do
      let captures ← pushCaptures ms s e
      match ← f captures with
      | none => return between s e  -- keep original text
      | some text => return text

/-- The loop of `str_gsub`, one unit of fuel for each iteration; `b` is the buffer. -/
def gsubLoop (srcInit p : Bytes) (repl : Repl) (anchor : Bool) (maxS : Nat) :
    Nat → Nat → Bytes → Bytes → Lua (Bytes × Nat)
  | 0, n, src, b => .ok (b ++ src, n)
  | fuel + 1, n, src, b => do
      if n < maxS then
        let found ← doMatch { srcInit, capture := [] } src p
        let (n, b) ← match found with
          | some (e, ms) => do
              let value ← addValue ms repl src e
              pure (n + 1, b ++ value)
          | none => pure (n, b)
        match found, src with
        | some (e, _), src =>
            if e.length < src.length then  -- non empty match: skip it
              if anchor then return (b ++ e, n) else gsubLoop srcInit p repl anchor maxS fuel n e b
            else match src with
              | [] => return (b, n)
              | c :: src =>
                  if anchor then return (b ++ c :: src, n)
                  else gsubLoop srcInit p repl anchor maxS fuel n src (b ++ [c])
        | none, [] => return (b, n)
        | none, c :: src =>
            if anchor then return (b ++ c :: src, n)
            else gsubLoop srcInit p repl anchor maxS fuel n src (b ++ [c])
      else return (b ++ src, n)

/-- `str_gsub` without a fourth argument: the result and the number of substitutions. -/
def strGsub (src pattern : Bytes) (repl : Repl) : Lua (Bytes × Nat) :=
  let p := cStr pattern
  let anchor := p.headD 0 = ch '^'
  gsubLoop src (if anchor then p.tail else p) repl anchor (src.length + 1) (src.length + 1) 0 src []

/-- The first result of `gsub`. -/
def gsub (src pattern : Bytes) (repl : Repl) : Lua Bytes := Prod.fst <$> strGsub src pattern repl

/-! ## Reading as a scan -/

/-- The pattern finds what the matcher finds, and the replacement writes what the emitter writes. -/
structure Implements (pattern : Bytes) (repl : Repl) {β : Type} (matcher : Matcher Byte β)
    (emit : β → Lua Bytes) : Prop where
  /-- The pattern is a C string and is not anchored. -/
  plain : cStr pattern = pattern ∧ pattern.headD 0 ≠ ch '^'
  /-- No match for the pattern where the matcher has none. -/
  miss : ∀ srcInit word, matcher.find word = none →
    doMatch { srcInit, capture := [] } word pattern = .ok none
  /-- A match of the matcher is a match of the pattern, replaced by the emitter's text. -/
  hit : ∀ srcInit word payload rest, matcher.find word = some (payload, rest) →
    ∃ ms, doMatch { srcInit, capture := [] } word pattern = .ok (some (rest, ms)) ∧
      addValue ms repl word rest = emit payload

section

variable {pattern : Bytes} {repl : Repl} {β : Type} {matcher : Matcher Byte β}
  {emit : β → Lua Bytes}

private theorem gsubLoop_eq_scan (implements : Implements pattern repl matcher emit)
    (srcInit : Bytes) (maxS fuel n : Nat) (src b : Bytes) (enough : src.length < fuel)
    (unlimited : n + src.length < maxS) :
    Prod.fst <$> gsubLoop srcInit pattern repl false maxS fuel n src b =
      (b ++ ·) <$> matcher.scan emit src := by
  induction fuel generalizing n src b with
  | zero => omega
  | succ fuel induction =>
      have below : n < maxS := by omega
      cases found : matcher.find src with
      | none =>
          have missed := implements.miss srcInit src found
          cases src with
          | nil =>
              simp [gsubLoop, below, missed, pure, Except.pure]
          | cons c src =>
              simp only [List.length_cons] at enough unlimited
              have remaining := induction n src (b ++ [c]) (by omega) (by omega)
              rw [Matcher.scan_miss _ _ found]
              simp only [gsubLoop, if_pos below, missed, ok_bind, pure, Except.pure,
                Bool.false_eq_true, if_false, remaining]
              cases matcher.scan emit src <;> simp
      | some result =>
          obtain ⟨payload, rest⟩ := result
          obtain ⟨ms, matched, added⟩ := implements.hit srcInit src payload rest found
          have shorter := matcher.shrinks found
          rw [Matcher.scan_hit _ _ found]
          simp only [gsubLoop, if_pos below, matched, ok_bind, added]
          cases emit payload with
          | error message => simp
          | ok value =>
              have remaining := induction (n + 1) rest (b ++ value) (by omega) (by omega)
              simp only [ok_bind, pure, Except.pure, if_pos shorter, Bool.false_eq_true, if_false,
                remaining]
              cases matcher.scan emit rest <;> simp

/-- `gsub` is the leftmost scan of its pattern. -/
theorem gsub_eq_scan (implements : Implements pattern repl matcher emit) (src : Bytes) :
    gsub src pattern repl = matcher.scan emit src := by
  have scanned := gsubLoop_eq_scan implements src (src.length + 1) (src.length + 1) 0 src []
    (by omega) (by omega)
  simp only [gsub, strGsub, implements.plain.1, implements.plain.2, decide_false, if_false,
    scanned, List.nil_append]
  cases matcher.scan emit src <;> rfl

end

/-! ## Patterns of one class -/

/-- A replacement function gets the captures, and its text replaces the whole match. -/
theorem addValue_function {f : List CapValue → Lua (Option Bytes)} {ms : MatchState}
    {word rest : Bytes} (captures : List CapValue)
    (pushed : pushCaptures ms word rest = .ok captures) :
    addValue ms (.function f) word rest = (·.getD (between word rest)) <$> f captures := by
  rw [addValue, pushed, ok_bind]
  cases f captures with
  | error message => rfl
  | ok value => cases value <;> rfl

/-- What a replacement function gives for a match that is its own only capture. -/
def replaceText (f : List CapValue → Lua (Option Bytes)) (text : Bytes) : Lua Bytes :=
  (·.getD text) <$> f [.text text]

private theorem addValue_text {f : List CapValue → Lua (Option Bytes)} {ms : MatchState}
    {text word rest : Bytes} (whole : word = text ++ rest)
    (captures : pushCaptures ms word rest = .ok [.text text]) :
    addValue ms (.function f) word rest = replaceText f text := by
  rw [addValue_function _ captures, whole, between_append, replaceText]

private theorem doMatch_run {pattern : Bytes} (select : Byte → Bool)
    (step : ∀ ms c s, doMatch ms (c :: s) pattern =
      if select c then maxExpand (fun s => .ok (some (s, ms))) select s else .ok none)
    (stop : ∀ ms, doMatch ms [] pattern = .ok none) (ms : MatchState) (word : Bytes) :
    doMatch ms word pattern = .ok (((run select).find word).map fun found => (found.2, ms)) := by
  cases word with
  | nil => exact stop ms
  | cons c s =>
      rw [step]
      cases accept : select c with
      | true =>
          rw [if_pos rfl, run_find_of_select accept, Option.map_some,
            maxExpand_of_total (fun s => (s, ms)) fun _ => rfl]
      | false => rw [run_find_of_reject accept]; rfl

/-- The pattern `%c+` with a function visits the maximal runs of control bytes. -/
theorem implements_cntrl_run (f : List CapValue → Lua (Option Bytes)) :
    Implements (bytes "%c+") (.function f) (run iscntrl) (replaceText f) where
  plain := by decide
  miss srcInit word missed := by
    rw [doMatch_run iscntrl (fun _ _ _ => rfl) (fun _ => rfl), missed]
    rfl
  hit srcInit word payload rest found := by
    refine ⟨{ srcInit, capture := [] }, ?_, ?_⟩
    · rw [doMatch_run iscntrl (fun _ _ _ => rfl) (fun _ => rfl), found]
      rfl
    · obtain ⟨rfl, -⟩ := run_find_eq_some found
      exact addValue_text rfl (by
        simp [pushCaptures, MatchState.level, pushOnecapture, List.range_succ, pure, Except.pure])

/-- The pattern `%s+` with the empty string erases the runs of white space. -/
theorem implements_space_run :
    Implements (bytes "%s+") (.string []) (run isspace) fun _ => .ok [] where
  plain := by decide
  miss srcInit word missed := by
    rw [doMatch_run isspace (fun _ _ _ => rfl) (fun _ => rfl), missed]
    rfl
  hit srcInit word payload rest found := by
    refine ⟨{ srcInit, capture := [] }, ?_, rfl⟩
    rw [doMatch_run isspace (fun _ _ _ => rfl) (fun _ => rfl), found]
    rfl

private theorem implements_one {pattern : Bytes} {select : Byte → Bool}
    (plain : cStr pattern = pattern ∧ pattern.headD 0 ≠ ch '^')
    (step : ∀ srcInit c s, doMatch { srcInit, capture := [] } (c :: s) pattern =
      if select c then
        .ok (some (s, { srcInit, capture :=
          [{ init := c :: s, len := .closed ((c :: s).length - s.length) }] }))
      else .ok none)
    (stop : ∀ srcInit, doMatch { srcInit, capture := [] } [] pattern = .ok none)
    (f : List CapValue → Lua (Option Bytes)) :
    Implements pattern (.function f) (one select) fun c => replaceText f [c] where
  plain := plain
  miss srcInit word missed := by
    cases word with
    | nil => exact stop _
    | cons c s =>
        have reject : select c = false := by
          by_contra accept
          simp [one, accept] at missed
        simp [step, reject]
  hit srcInit word c rest found := by
    cases word with
    | nil => simp [one] at found
    | cons d s =>
        have accept : select d = true := by
          by_contra reject
          simp [one, reject] at found
        obtain ⟨rfl, rfl⟩ : d = c ∧ s = rest := by simpa [one, accept] using found
        refine ⟨_, by rw [step, if_pos accept], ?_⟩
        exact addValue_text (show d :: s = [d] ++ s from rfl) (by
          simp [pushCaptures, MatchState.level, pushOnecapture, List.range_succ, pure, Except.pure])

/-- The pattern `(.)` with a function visits every byte. -/
theorem implements_any (f : List CapValue → Lua (Option Bytes)) :
    Implements (bytes "(.)") (.function f) (one fun _ => true) fun c => replaceText f [c] :=
  implements_one (by decide) (fun _ _ _ => rfl) (fun _ => rfl) f

/-- The pattern `(%c)` with a function visits every control byte. -/
theorem implements_cntrl (f : List CapValue → Lua (Option Bytes)) :
    Implements (bytes "(%c)") (.function f) (one iscntrl) fun c => replaceText f [c] :=
  implements_one (by decide) (fun _ _ _ => rfl) (fun _ => rfl) f

/-! ## Patterns of groups -/

/-- Hexadecimal digits between angle brackets. -/
def hexBrackets : Brackets Byte where
  opening := ch '<'
  closing := ch '>'
  select := isxdigit
  opening_reject := by decide
  closing_reject := by decide
  opening_ne := by decide

/-- A percent sign and two hexadecimal digits. -/
def percentMarker : Marker Byte where
  mark := ch '%'
  select := isxdigit
  width := 2
  mark_reject := by decide

/-- The state of a finished match of `<(%x+)>` whose capture starts at `init`. -/
private def groupState (srcInit init : Bytes) (len : Nat) : MatchState :=
  { srcInit, capture := [{ init, len := .closed len }] }

/-- What the pattern `<(%x+)>` does once its digits are read. -/
private theorem matchFuel_group_end (srcInit init s : Bytes) :
    matchFuel 5 { srcInit, capture := [{ init, len := .unfinished }] } s (bytes ")>") =
      match s with
      | [] => .ok none
      | e :: rest =>
          if ch '>' = e then .ok (some (rest, groupState srcInit init (init.length - s.length)))
          else .ok none := by
  rw [show bytes ")>" = ch ')' :: bytes ">" from rfl,
    matchFuel_close 4 _ _ 0 init rfl rfl]
  cases s with
  | nil => exact matchFuel_plain_nil [] (by decide) 3 _ (by decide)
  | cons e rest =>
      rw [matchFuel_plain_cons [] (by decide) 3 _ (by decide)]
      exact if_congr (decide_eq_true_iff (p := ch '>' = e)) rfl rfl

/-- What the pattern `<(%x+)>` does behind its opening bracket. -/
private theorem matchFuel_group_body (srcInit s : Bytes) :
    matchFuel 7 { srcInit, capture := [] } s (bytes "(%x+)>") =
      match s.takeWhile isxdigit, s.dropWhile isxdigit with
      | _ :: _, stop :: rest =>
          if ch '>' = stop then
            .ok (some (rest, groupState srcInit s (s.length - (stop :: rest).length)))
          else .ok none
      | _, _ => .ok none := by
  rw [show bytes "(%x+)>" = ch '(' :: bytes "%x+)>" from rfl,
    matchFuel_open 6 { srcInit, capture := [] } s (by decide) (by decide : 0 < luaMaxCaptures),
    List.nil_append]
  cases s with
  | nil => exact matchFuel_plain_nil (bytes "+)>") (by decide) 5 _ (by decide)
  | cons d s =>
      rw [matchFuel_plus_cons (bytes "+)>") (by decide) 5 _ (by decide)]
      have single (c : Byte) : singlematch c (bytes "%x+)>") (bytes "+)>") = isxdigit c := rfl
      simp only [single, show (bytes "+)>").tail = bytes ")>" from rfl]
      cases digit : isxdigit d with
      | false => simp [digit]
      | true =>
          rw [if_pos rfl, maxExpand_of_stuck, matchFuel_group_end]
          · rw [List.takeWhile_cons_of_pos digit, List.dropWhile_cons_of_pos digit]
            cases s.dropWhile isxdigit <;> rfl
          · intro e rest digit
            rw [matchFuel_group_end]
            refine if_neg fun closing => ?_
            rw [← closing] at digit
            exact absurd digit (by decide)

private theorem doMatch_group (srcInit word : Bytes) :
    doMatch { srcInit, capture := [] } word (bytes "<(%x+)>") =
      .ok ((hexBrackets.matcher.find word).map fun found =>
        (found.2, groupState srcInit word.tail found.1.length)) := by
  cases word with
  | nil => exact matchFuel_plain_nil (bytes "(%x+)>") (by decide) 7 _ (by decide)
  | cons c s =>
      have single : singlematch c (bytes "<(%x+)>") (bytes "(%x+)>") = decide (ch '<' = c) := rfl
      have parts := List.takeWhile_append_dropWhile (p := isxdigit) (l := s)
      have selects : hexBrackets.select = isxdigit := rfl
      rw [doMatch, show (bytes "<(%x+)>").length + 1 = 8 from rfl,
        matchFuel_plain_cons (bytes "(%x+)>") (by decide) 7 _ (by decide),
        matchFuel_group_body, single]
      simp only [Brackets.matcher, Brackets.group, selects]
      generalize taken : s.takeWhile isxdigit = front at parts ⊢
      generalize dropped : s.dropWhile isxdigit = back at parts ⊢
      cases front with
      | nil => simp
      | cons symbol body =>
          cases back with
          | nil => simp
          | cons stop rest =>
              have width : s.length - (stop :: rest).length = (symbol :: body).length := by
                rw [← parts, List.length_append, Nat.add_sub_cancel]
              simp only [width]
              by_cases opened : ch '<' = c
              · by_cases closed : ch '>' = stop
                · simp [hexBrackets, ← opened, ← closed]
                · simp [hexBrackets, ← opened, closed, Ne.symm closed]
              · simp [hexBrackets, opened, Ne.symm opened]

/-- The pattern `<(%x+)>` with a function visits the groups of hexadecimal digits. -/
theorem implements_group (f : List CapValue → Lua (Option Bytes)) :
    Implements (bytes "<(%x+)>") (.function f) hexBrackets.matcher fun body =>
      (·.getD (ch '<' :: (body ++ [ch '>']))) <$> f [.text body] where
  plain := by decide
  miss srcInit word missed := by
    rw [doMatch_group, missed]
    rfl
  hit srcInit word body rest found := by
    refine ⟨_, by rw [doMatch_group, found]; rfl, ?_⟩
    obtain ⟨rfl, -, -⟩ := hexBrackets.find_eq_some_iff.mp found
    rw [addValue_function [.text body]]
    · rw [show hexBrackets.opening :: (body ++ hexBrackets.closing :: rest) =
        (ch '<' :: (body ++ [ch '>'])) ++ rest by simp [hexBrackets], between_append]
    · simp [pushCaptures, MatchState.level, pushOnecapture, List.range_succ, groupState, pure,
        Except.pure]

/-- The state of a finished match of `(%%(%x%x))` at `init`. -/
private def percentState (srcInit init : Bytes) : MatchState :=
  { srcInit, capture := [{ init, len := .closed 3 }, { init := init.tail, len := .closed 2 }] }

/-- What the pattern `(%%(%x%x))` does behind its percent sign. -/
private theorem matchFuel_percent_digits (srcInit s : Bytes) (c : Byte) :
    matchFuel 9 { srcInit, capture := [{ init := c :: s, len := .unfinished }] } s
        (bytes "(%x%x))") =
      match s with
      | d :: e :: rest =>
          if isxdigit d && isxdigit e then .ok (some (rest, percentState srcInit (c :: s)))
          else .ok none
      | _ => .ok none := by
  have first (d : Byte) : singlematch d (bytes "%x%x))") (bytes "%x))") = isxdigit d := rfl
  have second (e : Byte) : singlematch e (bytes "%x))") (bytes "))") = isxdigit e := rfl
  rw [show bytes "(%x%x))" = ch '(' :: bytes "%x%x))" from rfl,
    matchFuel_open 8 { srcInit, capture := [{ init := c :: s, len := .unfinished }] } s (by decide)
      (by decide : 1 < luaMaxCaptures)]
  rcases s with - | ⟨d, - | ⟨e, rest⟩⟩
  · exact matchFuel_plain_nil (bytes "%x))") (by decide) 7 _ (by decide)
  · rw [matchFuel_plain_cons (bytes "%x))") (by decide) 7 _ (by decide),
      matchFuel_plain_nil (bytes "))") (by decide) 6 _ (by decide)]
    exact ite_self _
  · rw [matchFuel_plain_cons (bytes "%x))") (by decide) 7 _ (by decide),
      matchFuel_plain_cons (bytes "))") (by decide) 6 _ (by decide), first, second,
      show bytes "))" = [ch ')', ch ')'] from rfl,
      matchFuel_close 5 _ rest 1 (d :: e :: rest) rfl rfl,
      matchFuel_close 4 _ rest 0 (c :: d :: e :: rest) rfl rfl]
    have three : (c :: d :: e :: rest).length - rest.length = 3 := by simp; omega
    have two : (d :: e :: rest).length - rest.length = 2 := by simp; omega
    cases high : isxdigit d <;> cases low : isxdigit e <;>
      simp [matchFuel, percentState, MatchState.setLen, pure, Except.pure, high, low, three, two,
        -List.length_cons]

private theorem doMatch_percent (srcInit word : Bytes) :
    doMatch { srcInit, capture := [] } word (bytes "(%%(%x%x))") =
      .ok ((percentMarker.matcher.find word).map fun found =>
        (found.2, percentState srcInit word)) := by
  have single (c : Byte) :
      singlematch c (bytes "%%(%x%x))") (bytes "(%x%x))") = decide (ch '%' = c) := rfl
  rw [doMatch, show (bytes "(%%(%x%x))").length + 1 = 11 from rfl,
    show bytes "(%%(%x%x))" = ch '(' :: bytes "%%(%x%x))" from rfl,
    matchFuel_open 10 { srcInit, capture := [] } word (by decide) (by decide : 0 < luaMaxCaptures),
    List.nil_append]
  cases word with
  | nil => exact matchFuel_plain_nil (bytes "(%x%x))") (by decide) 9 _ (by decide)
  | cons c s =>
      rw [matchFuel_plain_cons (bytes "(%x%x))") (by decide) 9 _ (by decide),
        matchFuel_percent_digits, single]
      by_cases marked : ch '%' = c
      · rcases s with - | ⟨d, - | ⟨e, rest⟩⟩
        · simp [Marker.matcher, Marker.group, percentMarker]
        · simp [Marker.matcher, Marker.group, percentMarker]
        · cases high : isxdigit d <;> cases low : isxdigit e <;>
            simp [Marker.matcher, Marker.group, percentMarker, ← marked, high, low]
      · simp [Marker.matcher, Marker.group, percentMarker, marked, Ne.symm marked]

/-- The pattern `(%%(%x%x))` with a function visits the percent signs before two hexadecimal
digits; the function gets the whole group and its digits. -/
theorem implements_percent (f : List CapValue → Lua (Option Bytes)) :
    Implements (bytes "(%%(%x%x))") (.function f) percentMarker.matcher fun digits =>
      (·.getD (ch '%' :: digits)) <$> f [.text (ch '%' :: digits), .text digits] where
  plain := by decide
  miss srcInit word missed := by
    rw [doMatch_percent, missed]
    rfl
  hit srcInit word digits rest found := by
    refine ⟨_, by rw [doMatch_percent, found]; rfl, ?_⟩
    obtain ⟨rfl, width, -⟩ := percentMarker.find_eq_some_iff.mp found
    obtain ⟨d, e, rfl⟩ := List.length_eq_two.mp width
    rw [addValue_function [.text [ch '%', d, e], .text [d, e]]]
    · rw [show percentMarker.mark :: ([d, e] ++ rest) = [ch '%', d, e] ++ rest from rfl,
        between_append]
    · simp [pushCaptures, MatchState.level, pushOnecapture, List.range_succ, percentState,
        percentMarker, pure, Except.pure]

end LuaScript
