import LuaScript.CType

/-!
# A fragment of the language

`llex.c` and `lparser.c` on one line of assignments and of conditionals that compare a variable with
`nil`.  Whatever else the compiler accepts or rejects is outside the fragment, and has no tokens or
no block here.
-/

namespace LuaScript

/-! ## Tokens -/

/-- The tokens of the fragment, and all reserved words. -/
inductive Token where
  | tkAnd | tkBreak | tkDo | tkElse | tkElseif | tkEnd | tkFalse | tkFor | tkFunction | tkIf | tkIn
  | tkLocal | tkNil | tkNot | tkOr | tkRepeat | tkReturn | tkThen | tkTrue | tkUntil | tkWhile
  /-- `==` -/
  | tkEq
  | tkName (s : Bytes)
  /-- `=` -/
  | assign
  /-- `.` -/
  | dot
  /-- `;` -/
  | semicolon
  /-- An opening brace. -/
  | openBrace
  /-- A closing brace. -/
  | closeBrace
  deriving DecidableEq

/-- The reserved words of `luaX_tokens`. -/
def luaXTokens : List (Bytes × Token) :=
  [(bytes "and", .tkAnd), (bytes "break", .tkBreak), (bytes "do", .tkDo), (bytes "else", .tkElse),
    (bytes "elseif", .tkElseif), (bytes "end", .tkEnd), (bytes "false", .tkFalse),
    (bytes "for", .tkFor), (bytes "function", .tkFunction), (bytes "if", .tkIf),
    (bytes "in", .tkIn), (bytes "local", .tkLocal), (bytes "nil", .tkNil), (bytes "not", .tkNot),
    (bytes "or", .tkOr), (bytes "repeat", .tkRepeat), (bytes "return", .tkReturn),
    (bytes "then", .tkThen), (bytes "true", .tkTrue), (bytes "until", .tkUntil),
    (bytes "while", .tkWhile)]

/-- The token of a word: reserved or a name. -/
def wordToken (s : Bytes) : Token :=
  match luaXTokens.find? fun entry => entry.1 == s with
  | some entry => entry.2
  | none => .tkName s

/-- A character inside a word. -/
def isword (c : Byte) : Bool := isalnum c || c == ch '_'

/-- The beginning of a token, as far as it was read. -/
inductive Pending where
  | start
  | word (s : Bytes)
  | equals
  | dot

/-- The first character of a token: the tokens it completes, and what it begins. -/
def firstChar (c : Byte) : Option (List Token × Pending) :=
  if c = 10 ∨ c = 13 then none  -- the next line
  else if isspace c then some ([], .start)
  else if isdigit c then none  -- a numeral
  else if isword c then some ([], .word [c])
  else if c = ch '=' then some ([], .equals)
  else if c = ch '.' then some ([], .dot)
  else if c = ch ';' then some ([.semicolon], .start)
  else if c = 123 then some ([.openBrace], .start)
  else if c = 125 then some ([.closeBrace], .start)
  else none

/-- The next character. -/
def Pending.next : Pending → Byte → Option (List Token × Pending)
  | .start, c => firstChar c
  | .word s, c =>
      if isword c then some ([], .word (s ++ [c]))
      else (firstChar c).map fun (tokens, pending) => (wordToken s :: tokens, pending)
  | .equals, c =>
      if c = ch '=' then some ([.tkEq], .start)
      else (firstChar c).map fun (tokens, pending) => (.assign :: tokens, pending)
  | .dot, c =>
      if c = ch '.' ∨ isdigit c then none
      else (firstChar c).map fun (tokens, pending) => (.dot :: tokens, pending)

/-- The token that ends with the text. -/
def Pending.last : Pending → List Token
  | .start => []
  | .word s => [wordToken s]
  | .equals => [.assign]
  | .dot => [.dot]

/-- `llex`, until the end of the text. -/
def llex : Pending → Bytes → Option (List Token)
  | pending, [] => some pending.last
  | pending, c :: s =>
      match pending.next c with
      | some (tokens, pending) => (llex pending s).map (tokens ++ ·)
      | none => none

theorem llex_cons {pending pending' : Pending} {c : Byte} {tokens : List Token}
    (read : pending.next c = some (tokens, pending')) (s : Bytes) :
    llex pending (c :: s) = (llex pending' s).map (tokens ++ ·) := by
  rw [llex, read]

/-- A space ends every token. -/
theorem llex_space {pending : Pending} {front : Bytes} {tokens : List Token}
    (read : llex pending front = some tokens) (back : Bytes) :
    llex pending (front ++ ch ' ' :: back) = (llex .start back).map (tokens ++ ·) := by
  induction front generalizing pending tokens with
  | nil =>
      obtain rfl : pending.last = tokens := Option.some.inj read
      have ended : pending.next (ch ' ') = some (pending.last, .start) := by
        cases pending <;> rfl
      exact llex_cons ended back
  | cons c front induction =>
      rw [llex] at read
      cases step : pending.next c with
      | none =>
          rw [step] at read
          cases read
      | some next =>
          obtain ⟨here, pending'⟩ := next
          rw [step] at read
          obtain ⟨rest, later, rfl⟩ := Option.map_eq_some_iff.mp read
          rw [List.cons_append, llex_cons step, induction later, Option.map_map]
          congr 1
          funext tokens
          exact (List.append_assoc ..).symm

/-! ## Identifiers -/

/-- A name of the language: a word that does not begin with a digit and is not reserved. -/
structure IsName (s : Bytes) : Prop where
  /-- The first character. -/
  first : ∃ c s', s = c :: s' ∧ isdigit c = false
  /-- All characters. -/
  word : ∀ c ∈ s, isword c = true
  /-- Not a reserved word. -/
  unreserved : wordToken s = .tkName s

/-- The rest of a word. -/
theorem llex_word (w s : Bytes) (word : ∀ c ∈ s, isword c = true) :
    llex (.word w) s = some [wordToken (w ++ s)] := by
  induction s generalizing w with
  | nil => rw [List.append_nil]; rfl
  | cons c s induction =>
      have inside : Pending.next (.word w) c = some ([], .word (w ++ [c])) := by
        rw [Pending.next, if_pos (word c List.mem_cons_self)]
      rw [llex_cons inside, induction _ fun c member => word c (List.mem_cons_of_mem _ member)]
      simp

/-- The rest of a word in front of a dot. -/
theorem llex_word_dot (w s back : Bytes) (word : ∀ c ∈ s, isword c = true) :
    llex (.word w) (s ++ ch '.' :: back) = (llex .dot back).map (wordToken (w ++ s) :: ·) := by
  induction s generalizing w with
  | nil =>
      have ended : Pending.next (.word w) (ch '.') = some ([wordToken w], .dot) := rfl
      rw [List.nil_append, llex_cons ended, List.append_nil]
      rfl
  | cons c s induction =>
      have inside : Pending.next (.word w) c = some ([], .word (w ++ [c])) := by
        rw [Pending.next, if_pos (word c List.mem_cons_self)]
      rw [List.cons_append, llex_cons inside,
        induction _ fun c member => word c (List.mem_cons_of_mem _ member), Option.map_map]
      simp only [List.append_assoc, List.singleton_append]
      rfl

/-- A word begins with its first character. -/
theorem next_start_of_word {c : Byte} (word : isword c = true) (digit : isdigit c = false) :
    Pending.next .start c = some ([], .word [c]) := by
  have plain (c : Byte) : isword c = true → ¬(c = 10 ∨ c = 13) ∧ isspace c = false := by
    revert c
    exact forall_byte (by decide +kernel)
  obtain ⟨line, space⟩ := plain c word
  simp [Pending.next, firstChar, line, space, digit, word]

/-- A name is a token. -/
theorem IsName.llex {s : Bytes} (name : IsName s) : llex .start s = some [.tkName s] := by
  obtain ⟨⟨c, s', rfl, digit⟩, word, unreserved⟩ := name
  have first := next_start_of_word (word c List.mem_cons_self) digit
  rw [llex_cons first, llex_word [c] s' fun c member => word c (List.mem_cons_of_mem _ member)]
  simp [unreserved]

/-- A name, a dot and a name. -/
theorem IsName.llex_dot {s s' : Bytes} (name : IsName s) (name' : IsName s') :
    LuaScript.llex .start (s ++ ch '.' :: s') = some [.tkName s, .dot, .tkName s'] := by
  obtain ⟨⟨c, front, rfl, digit⟩, word, unreserved⟩ := name
  obtain ⟨⟨c', back, rfl, digit'⟩, word', unreserved'⟩ := name'
  have first := next_start_of_word (word c List.mem_cons_self) digit
  have first' := next_start_of_word (word' c' List.mem_cons_self) digit'
  rw [Pending.next] at first'
  have dotted : Pending.next .dot c' = some ([.dot], .word [c']) := by
    have other : c' ≠ ch '.' := by
      rintro rfl
      exact absurd (word' (ch '.') List.mem_cons_self) (by decide)
    simp [Pending.next, other, digit', first']
  rw [List.cons_append, llex_cons first,
    llex_word_dot [c] front _ fun c member => word c (List.mem_cons_of_mem _ member),
    llex_cons dotted, llex_word [c'] back fun c member => word' c (List.mem_cons_of_mem _ member)]
  simp [unreserved, unreserved']

/-! ## Blocks -/

/-- The expressions of the fragment. -/
inductive Exp where
  /-- `nil` -/
  | nil
  /-- A global variable. -/
  | global (name : Bytes)
  /-- An empty table constructor. -/
  | constructor

/-- A block: its statements in order. -/
inductive Block where
  | done
  /-- `name = value` -/
  | assign (name : Bytes) (value : Exp) (next : Block)
  /-- `table.key = value`, where the value is a global variable -/
  | assignField (table key value : Bytes) (next : Block)
  /-- `if name == nil then body end` -/
  | ifNil (name : Bytes) (body next : Block)

/-- `simpleexp` -/
def simpleexp : List Token → Option (Exp × List Token)
  | .tkNil :: tokens => some (.nil, tokens)
  | .tkName name :: tokens => some (.global name, tokens)
  | .openBrace :: .closeBrace :: tokens => some (.constructor, tokens)
  | _ => none

/-- `testnext(ls, ';')` behind a statement that ends here. -/
def testnext : List Token → Option (List Token)
  | .semicolon :: tokens => some tokens
  | .tkEnd :: tokens => some (.tkEnd :: tokens)
  | [] => some []
  | _ => none

/-- `chunk`, with a bound on the number of statements: the block and the tokens that follow it. -/
def chunk : Nat → List Token → Option (Block × List Token)
  | 0, _ => none
  | _, [] => some (.done, [])
  | _, .tkEnd :: tokens => some (.done, .tkEnd :: tokens)
  | bound + 1, .tkIf :: .tkName name :: .tkEq :: .tkNil :: .tkThen :: tokens => do
      match ← chunk bound tokens with
      | (body, .tkEnd :: tokens) => do
          let tokens ← testnext tokens
          let (next, tokens) ← chunk bound tokens
          some (.ifNil name body next, tokens)
      | _ => none
  | bound + 1, .tkName table :: .dot :: .tkName key :: .assign :: .tkName value :: tokens => do
      let tokens ← testnext tokens
      let (next, tokens) ← chunk bound tokens
      some (.assignField table key value next, tokens)
  | bound + 1, .tkName name :: .assign :: tokens => do
      let (value, tokens) ← simpleexp tokens
      let tokens ← testnext tokens
      let (next, tokens) ← chunk bound tokens
      some (.assign name value next, tokens)
  | _, _ => none

/-- `luaY_parser` on the fragment. -/
def parseText (s : Bytes) : Option Block := do
  let tokens ← llex .start s
  match ← chunk (tokens.length + 1) tokens with
  | (block, []) => some block
  | _ => none

/-- The deepest nesting of `enterlevel` while a block is parsed. -/
def Block.levels : Block → Nat
  | .done => 1
  | .assign _ _ next => max 2 next.levels
  | .assignField _ _ _ next => max 2 next.levels
  | .ifNil _ body next => max 3 (max (1 + body.levels) next.levels)

end LuaScript
