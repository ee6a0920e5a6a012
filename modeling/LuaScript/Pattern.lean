import LuaScript.LStrLib
import LuaScript.Lib.Scan

/-!
# Pattern matching

The backtracking matcher of `lstrlib.c` and `string.gsub` over it.  A pointer into the subject or
the pattern is the suffix it points at, so `*p` at the end of a word is the NUL that `headD 0`
supplies.
-/

namespace LuaScript

open Fallible

/-! ## Matcher -/

/-- The `len` field of a capture. -/
inductive CapLen where
  /-- `CAP_UNFINISHED` -/
  | unfinished
  /-- `CAP_POSITION` -/
  | position
  /-- A closed capture. -/
  | closed (len : Nat)
  deriving DecidableEq

/-- One entry of `MatchState.capture`. -/
structure Capture where
  /-- Where the capture starts. -/
  init : Bytes
  /-- Its length, or what is known of it. -/
  len : CapLen
  deriving DecidableEq

/-- The state of one match; `level` is the number of captures. -/
structure MatchState where
  /-- `src_init`, the whole subject. -/
  srcInit : Bytes
  /-- The captures, finished or unfinished. -/
  capture : List Capture
  deriving DecidableEq

/-- `MatchState.level` -/
def MatchState.level (ms : MatchState) : Nat := ms.capture.length

/-- Set the length of one capture. -/
def MatchState.setLen (ms : MatchState) (l : Nat) (len : CapLen) : MatchState :=
  { ms with capture := ms.capture.modify l fun capture => { capture with len } }

/-- What a match attempt gives: an error, no match, or where the match ends. -/
abbrev MatchResult := Lua (Option (Bytes × MatchState))

/-- `LUA_MAXCAPTURES` -/
def luaMaxCaptures : Nat := 32

/-- `check_capture` -/
def checkCapture (ms : MatchState) (l : Byte) : Lua Nat :=
  let index := l.toNat - 49
  if l.toNat < 49 ∨ ms.level ≤ index ∨ (ms.capture[index]?.map Capture.len) = some .unfinished then
    .error (bytes "invalid capture index")
  else .ok index

/-- `capture_to_close`: the last unfinished capture. -/
def captureToClose (ms : MatchState) : Lua Nat :=
  match (List.range ms.level).reverse.find? fun level =>
      (ms.capture[level]?.map Capture.len) = some .unfinished with
  | some level => .ok level
  | none => .error (bytes "invalid pattern capture")

/-- The loop of `classend` over the inside of a `[set]`. -/
def classendSet : Bytes → Lua Bytes
  | [] => .error (bytes "malformed pattern (missing ']')")
  | [_] => .error (bytes "malformed pattern (missing ']')")
  | c :: d :: p =>
      if c = ch '%' then
        -- skip escapes (e.g. `%]')
        if p.headD 0 = ch ']' then .ok p.tail else classendSet p
      else if d = ch ']' then .ok p
      else classendSet (d :: p)

/-- `classend`: the end of the pattern item at `p`. -/
def classend : Bytes → Lua Bytes
  | [] => .ok []
  | c :: p =>
      if c = ch '%' then
        if p = [] then .error (bytes "malformed pattern (ends with '%')") else .ok p.tail
      else if c = ch '[' then
        classendSet (if p.headD 0 = ch '^' then p.tail else p)
      else .ok p

/-- `match_class` -/
def matchClass (c cl : Byte) : Bool :=
  let select (res : Bool) : Bool := if islower cl then res else !res
  let lower := tolower cl
  if lower = ch 'a' then select (isalpha c)
  else if lower = ch 'c' then select (iscntrl c)
  else if lower = ch 'd' then select (isdigit c)
  else if lower = ch 'l' then select (islower c)
  else if lower = ch 'p' then select (ispunct c)
  else if lower = ch 's' then select (isspace c)
  else if lower = ch 'u' then select (isupper c)
  else if lower = ch 'w' then select (isalnum c)
  else if lower = ch 'x' then select (isxdigit c)
  else if lower = ch 'z' then select (c = 0)
  else cl = c

/-- The loop of `matchbracketclass` over the members of a set. -/
def matchSet (c : Byte) : Bytes → Bool
  | [] => false
  | [x] => if x = ch '%' then matchClass c (ch ']') else x = c
  | [x, y] => if x = ch '%' then matchClass c y else x = c || matchSet c [y]
  | x :: y :: z :: rest =>
      if x = ch '%' then matchClass c y || matchSet c (z :: rest)
      else if y = ch '-' then (x ≤ c && c ≤ z) || matchSet c rest
      else x = c || matchSet c (y :: z :: rest)

/-- `matchbracketclass` on the text between the brackets. -/
def matchbracketclass (c : Byte) (set : Bytes) : Bool :=
  if set.headD 0 = ch '^' then !matchSet c set.tail else matchSet c set

/-- `singlematch`: does `c` match the item from `p` to `ep`? -/
def singlematch (c : Byte) (p ep : Bytes) : Bool :=
  match p with
  | [] => c = 0
  | x :: rest =>
      if x = ch '.' then true
      else if x = ch '%' then matchClass c (rest.headD 0)
      else if x = ch '[' then matchbracketclass c (rest.take (rest.length - ep.length - 1))
      else x = c

/-- The loop of `matchbalance`, with `cont` openings pending. -/
def matchbalanceLoop (b e : Byte) : Nat → Bytes → Option Bytes
  | _, [] => none
  | cont, c :: s =>
      if c = e then (if cont - 1 = 0 then some s else matchbalanceLoop b e (cont - 1) s)
      else if c = b then matchbalanceLoop b e (cont + 1) s
      else matchbalanceLoop b e cont s

/-- `matchbalance` -/
def matchbalance (s p : Bytes) : Lua (Option Bytes) :=
  match p with
  | b :: e :: _ => .ok (if s.headD 0 = b then matchbalanceLoop b e 1 s.tail else none)
  | _ => .error (bytes "unbalanced pattern")

/-- The backtracking loop of `max_expand`: at most `i` repetitions, and fewer if that fails. -/
def maxExpandLoop (next : Bytes → MatchResult) (s : Bytes) : Nat → MatchResult
  | 0 => next s
  | i + 1 => do
      match ← next (s.drop (i + 1)) with
      | some res => return some res
      | none => maxExpandLoop next s i

/-- `max_expand` -/
def maxExpand (next : Bytes → MatchResult) (single : Byte → Bool) (s : Bytes) : MatchResult :=
  maxExpandLoop next s (s.takeWhile single).length

/-- `min_expand` -/
def minExpand (next : Bytes → MatchResult) (single : Byte → Bool) : Bytes → MatchResult
  | [] => next []
  | c :: s => do
      match ← next (c :: s) with
      | some res => return some res
      | none => if single c then minExpand next single s else return none

/-- `start_capture` -/
def startCapture (next : MatchState → MatchResult) (ms : MatchState) (s : Bytes) (what : CapLen) :
    MatchResult :=
  if luaMaxCaptures ≤ ms.level then .error (bytes "too many captures")
  else next { ms with capture := ms.capture ++ [{ init := s, len := what }] }

/-- `end_capture` -/
def endCapture (next : MatchState → MatchResult) (ms : MatchState) (s : Bytes) : MatchResult := do
  let l ← captureToClose ms
  let init := (ms.capture[l]?.map Capture.init).getD []
  next (ms.setLen l (.closed (init.length - s.length)))

/-- `match_capture` -/
def matchCapture (ms : MatchState) (s : Bytes) (l : Byte) : Lua (Option Bytes) := do
  let l ← checkCapture ms l
  match ms.capture[l]? with
  | some { init, len := .closed len } =>
      return if init.take len <+: s then some (s.drop len) else none
  | _ => return none

/-- The default case of `match`: a single item with an optional suffix. -/
def matchItem (next : MatchState → Bytes → Bytes → MatchResult) (ms : MatchState) (s p : Bytes) :
    MatchResult := do
  let ep ← classend p
  let single (c : Byte) : Bool := singlematch c p ep
  let m := match s with
    | [] => false
    | c :: _ => single c
  let rest := ep.tail
  if ep.headD 0 = ch '?' then
    match ← (if m then next ms s.tail rest else .ok none) with
    | some res => return some res
    | none => next ms s rest
  else if ep.headD 0 = ch '*' then maxExpand (fun s => next ms s rest) single s
  else if ep.headD 0 = ch '+' then
    if m then maxExpand (fun s => next ms s rest) single s.tail else return none
  else if ep.headD 0 = ch '-' then minExpand (fun s => next ms s rest) single s
  else if m then next ms s.tail ep else return none

/-- `match`, with one unit of fuel for each level of recursion. -/
def matchFuel : Nat → MatchState → Bytes → Bytes → MatchResult
  | 0, _, _, _ => .error []
  | fuel + 1, ms, s, p =>
      match p with
      | [] => return some (s, ms)
      | c :: rest =>
          if c = ch '(' then
            if rest.headD 0 = ch ')' then
              startCapture (fun ms => matchFuel fuel ms s rest.tail) ms s .position
            else startCapture (fun ms => matchFuel fuel ms s rest) ms s .unfinished
          else if c = ch ')' then endCapture (fun ms => matchFuel fuel ms s rest) ms s
          else if c = ch '%' ∧ rest.headD 0 = ch 'b' then do
            match ← matchbalance s rest.tail with
            | none => return none
            | some s => matchFuel fuel ms s (rest.drop 3)
          else if c = ch '%' ∧ rest.headD 0 = ch 'f' then do
            let p := rest.tail
            if p.headD 0 ≠ ch '[' then .error (bytes "missing '[' after '%f' in pattern")
            else do
              let ep ← classend p
              let set := p.tail.take (p.tail.length - ep.length - 1)
              let previous :=
                if s.length = ms.srcInit.length then 0
                else (ms.srcInit[ms.srcInit.length - s.length - 1]?).getD 0
              if matchbracketclass previous set || !matchbracketclass (s.headD 0) set then
                return none
              else matchFuel fuel ms s ep
          else if c = ch '%' ∧ isdigit (rest.headD 0) then do
            match ← matchCapture ms s (rest.headD 0) with
            | none => return none
            | some s => matchFuel fuel ms s rest.tail
          else if c = ch '$' ∧ rest = [] then return if s = [] then some (s, ms) else none
          else matchItem (matchFuel fuel) ms s p

/-- `match`: every recursive call reads a shorter pattern, so the fuel lasts. -/
def doMatch (ms : MatchState) (s p : Bytes) : MatchResult := matchFuel (p.length + 1) ms s p

/-! ## Fuel -/

theorem classendSet_length {p ep : Bytes} (found : classendSet p = .ok ep) :
    ep.length < p.length := by
  fun_induction classendSet p with
  | case1 => simp at found
  | case2 => simp at found
  | case3 d p closes =>
      obtain rfl : p.tail = ep := by simpa using found
      simp only [List.length_tail, List.length_cons]
      omega
  | case4 d p open_ induction =>
      have shorter := induction found
      simp only [List.length_cons]
      omega
  | case5 c p escapes =>
      obtain rfl : p = ep := by simpa using found
      simp only [List.length_cons]
      omega
  | case6 c d p escapes open_ induction =>
      have shorter := induction found
      simp only [List.length_cons] at shorter ⊢
      omega

/-- An item is nonempty, so its end is a shorter pattern. -/
theorem classend_length {p ep : Bytes} (nonempty : p ≠ []) (found : classend p = .ok ep) :
    ep.length < p.length := by
  cases p with
  | nil => exact absurd rfl nonempty
  | cons c p =>
      simp only [classend] at found
      split at found
      · split at found
        · simp at found
        · obtain rfl : p.tail = ep := by simpa using found
          simp only [List.length_tail, List.length_cons]
          omega
      · split at found
        · have shorter := classendSet_length found
          have tail_le : (if p.headD 0 = ch '^' then p.tail else p).length ≤ p.length := by
            split <;> simp
          simp only [List.length_cons]
          omega
        · obtain rfl : p = ep := by simpa using found
          simp

private theorem matchItem_congr {next next' : MatchState → Bytes → Bytes → MatchResult}
    {p : Bytes} (nonempty : p ≠ [])
    (agree : ∀ ms s q, q.length < p.length → next ms s q = next' ms s q)
    (ms : MatchState) (s : Bytes) : matchItem next ms s p = matchItem next' ms s p := by
  cases found : classend p with
  | error message => simp [matchItem, found]
  | ok ep =>
      have shorter := classend_length nonempty found
      have agree_tail (s : Bytes) : next ms s ep.tail = next' ms s ep.tail :=
        agree ms s ep.tail (by simp only [List.length_tail]; omega)
      have agree_ep (s : Bytes) : next ms s ep = next' ms s ep := agree ms s ep shorter
      simp only [matchItem, found, ok_bind, agree_tail, agree_ep]

/-- Any fuel above the length of the pattern gives the same match. -/
theorem matchFuel_eq {fuel fuel' : Nat} (ms : MatchState) (s p : Bytes)
    (enough : p.length < fuel) (enough' : p.length < fuel') :
    matchFuel fuel ms s p = matchFuel fuel' ms s p := by
  induction fuel generalizing fuel' ms s p with
  | zero => omega
  | succ fuel induction =>
      obtain ⟨fuel', rfl⟩ : ∃ smaller, fuel' = smaller + 1 := ⟨fuel' - 1, by omega⟩
      cases p with
      | nil => rfl
      | cons c rest =>
          have agree (ms : MatchState) (s q : Bytes) (shorter : q.length < (c :: rest).length) :
              matchFuel fuel ms s q = matchFuel fuel' ms s q :=
            induction ms s q (by omega) (by omega)
          have rest_lt : rest.length < (c :: rest).length := by simp
          have tail_lt : rest.tail.length < (c :: rest).length := by
            simp only [List.length_tail, List.length_cons]
            omega
          have drop_lt : (rest.drop 3).length < (c :: rest).length := by
            simp only [List.length_drop, List.length_cons]
            omega
          have frontier (s : Bytes) : ∀ ep, classend rest.tail = .ok ep →
              rest.tail.headD 0 = ch '[' → matchFuel fuel ms s ep = matchFuel fuel' ms s ep := by
            intro ep found bracket
            have nonempty : rest.tail ≠ [] := by
              intro empty
              rw [empty] at bracket
              exact absurd bracket (by decide)
            exact agree ms s ep ((classend_length nonempty found).trans tail_lt)
          simp only [matchFuel, agree _ _ _ rest_lt, agree _ _ _ tail_lt, agree _ _ _ drop_lt,
            matchItem_congr (List.cons_ne_nil c rest) agree]
          by_cases bracket : rest.tail.headD 0 = ch '['
          · cases found : classend rest.tail with
            | error message => rfl
            | ok ep => simp only [ok_bind, frontier s ep found bracket]
          · simp only [ne_eq, bracket, not_false_eq_true, if_true]

/-! ## Plain items -/

/-- The pattern at `p` starts with an ordinary item that ends at `ep`: neither a capture nor one of
the special forms `%b`, `%f`, `%0`-`%9` and a final `$`. -/
def PlainItem (p ep : Bytes) : Prop :=
  p ≠ [] ∧ p.headD 0 ∉ [ch '(', ch ')', ch '$'] ∧
    (p.headD 0 = ch '%' →
      p.tail.headD 0 ≠ ch 'b' ∧ p.tail.headD 0 ≠ ch 'f' ∧ ¬isdigit (p.tail.headD 0)) ∧
    classend p = .ok ep

instance (p ep : Bytes) : Decidable (PlainItem p ep) :=
  inferInstanceAs (Decidable (_ ∧ _ ∧ (_ → _) ∧ _))

section Plain

variable {p : Bytes} (ep : Bytes) (plain : PlainItem p ep) (fuel : Nat) (ms : MatchState)

include plain

private theorem matchFuel_plain (s : Bytes) :
    matchFuel (fuel + 1) ms s p = matchItem (matchFuel fuel) ms s p := by
  obtain ⟨nonempty, head, percent, -⟩ := plain
  obtain ⟨c, rest, rfl⟩ := List.exists_cons_of_ne_nil nonempty
  simp only [List.headD_cons, List.tail_cons, List.mem_cons, List.not_mem_nil, or_false,
    not_or] at head percent
  obtain ⟨open_, close, dollar⟩ := head
  rw [matchFuel, if_neg open_, if_neg close, if_neg fun special => (percent special.1).1 special.2,
    if_neg fun special => (percent special.1).2.1 special.2,
    if_neg fun special => (percent special.1).2.2 special.2,
    if_neg fun special => dollar special.1]

theorem matchFuel_plain_nil (single : ep.headD 0 ∉ [ch '?', ch '*', ch '-']) :
    matchFuel (fuel + 1) ms [] p = .ok none := by
  simp only [List.mem_cons, List.not_mem_nil, or_false, not_or] at single
  rw [matchFuel_plain ep plain, matchItem, plain.2.2.2, ok_bind]
  simp only [single, if_false, Bool.false_eq_true, ite_self]
  rfl

/-- An item without a suffix reads one byte. -/
theorem matchFuel_plain_cons (single : ep.headD 0 ∉ [ch '?', ch '*', ch '+', ch '-']) (c : Byte)
    (s : Bytes) :
    matchFuel (fuel + 1) ms (c :: s) p =
      if singlematch c p ep then matchFuel fuel ms s ep else .ok none := by
  simp only [List.mem_cons, List.not_mem_nil, or_false, not_or] at single
  rw [matchFuel_plain ep plain, matchItem, plain.2.2.2, ok_bind]
  simp only [single, if_false, List.tail_cons]
  rfl

/-- An item with a `+` reads one byte and then as many as it can. -/
theorem matchFuel_plus_cons (plus : ep.headD 0 = ch '+') (c : Byte) (s : Bytes) :
    matchFuel (fuel + 1) ms (c :: s) p =
      if singlematch c p ep then
        maxExpand (fun s => matchFuel fuel ms s ep.tail) (fun c => singlematch c p ep) s
      else .ok none := by
  rw [matchFuel_plain ep plain, matchItem, plain.2.2.2, ok_bind]
  simp only [plus, show ch '+' ≠ ch '?' by decide, show ch '+' ≠ ch '*' by decide, if_false,
    if_true, List.tail_cons]
  rfl

end Plain

/-! ## Captures -/

/-- An opening parenthesis starts a capture. -/
theorem matchFuel_open (fuel : Nat) (ms : MatchState) (s : Bytes) {rest : Bytes}
    (text : rest.headD 0 ≠ ch ')') (room : ms.level < luaMaxCaptures) :
    matchFuel (fuel + 1) ms s (ch '(' :: rest) =
      matchFuel fuel { ms with capture := ms.capture ++ [{ init := s, len := .unfinished }] } s
        rest := by
  rw [matchFuel, if_pos rfl, if_neg text, startCapture, if_neg (by omega)]

/-- A closing parenthesis closes the last capture that is still open. -/
theorem matchFuel_close (fuel : Nat) (ms : MatchState) (s : Bytes) (l : Nat) (init : Bytes)
    {rest : Bytes}
    (last : captureToClose ms = .ok l) (start : (ms.capture[l]?.map Capture.init) = some init) :
    matchFuel (fuel + 1) ms s (ch ')' :: rest) =
      matchFuel fuel (ms.setLen l (.closed (init.length - s.length))) s rest := by
  rw [matchFuel, if_neg (by decide), if_pos rfl, endCapture, last, ok_bind]
  simp only [start, Option.getD_some]

/-! ## Greedy repetition -/

/-- When what follows always matches, a repetition takes all it can. -/
theorem maxExpand_of_total {next : Bytes → MatchResult} {single : Byte → Bool}
    (result : Bytes → Bytes × MatchState) (total : ∀ s, next s = .ok (some (result s)))
    (s : Bytes) : maxExpand next single s = .ok (some (result (s.dropWhile single))) := by
  rw [maxExpand, Scan.dropWhile_eq_drop]
  cases (s.takeWhile single).length with
  | zero => exact total s
  | succ count =>
      simp only [maxExpandLoop, total]
      rfl

/-- When what follows never matches at a repeated byte, giving a repetition back never helps. -/
theorem maxExpand_of_stuck {next : Bytes → MatchResult} {single : Byte → Bool}
    (stuck : ∀ c s, single c = true → next (c :: s) = .ok none) (s : Bytes) :
    maxExpand next single s = next (s.dropWhile single) := by
  have retreat (s : Bytes) : ∀ count, count < (s.takeWhile single).length →
      maxExpandLoop next s count = .ok none := by
    have starts (count : Nat) (inside : count < (s.takeWhile single).length) :
        next (s.drop count) = .ok none := by
      have prefixed := List.takeWhile_prefix (l := s) single
      have bound : count < s.length := inside.trans_le prefixed.length_le
      rw [List.drop_eq_getElem_cons bound]
      refine stuck _ _ ?_
      rw [← prefixed.getElem inside]
      exact List.mem_takeWhile_imp (List.getElem_mem inside)
    intro count
    induction count with
    | zero => exact fun inside => starts 0 inside
    | succ count induction =>
        intro inside
        simp only [maxExpandLoop, starts _ inside, ok_bind]
        exact induction (by omega)
  rw [maxExpand, Scan.dropWhile_eq_drop]
  cases taken : (s.takeWhile single).length with
  | zero => rfl
  | succ count =>
      rw [maxExpandLoop, retreat s count (by omega)]
      cases next (s.drop (count + 1)) with
      | error message => rfl
      | ok result => cases result <;> rfl

end LuaScript
