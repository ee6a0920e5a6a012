import Mathlib.Algebra.Ring.Int.Defs
import Mathlib.Algebra.Ring.Nat
import LuaScript.CType
import LuaScript.Lib.Search

/-!
# Error messages and `lua::exception`

The interpreter puts the chunk id and the line in front of an error message; the constructor of
`lua::exception` takes them off again by searching for the separators.  The chunk id holds script
text and the message is arbitrary, so the separators it finds need not be the ones that were put
there.  The last theorem says exactly when they are.
-/

namespace LuaScript

open Search

/-! ## Decimal numerals -/

/-- The last digit comes off the end. -/
theorem decimal_eq (n : Nat) :
    decimal n = (if n < 10 then [] else decimal (n / 10)) ++ [UInt8.ofNat (48 + n % 10)] := by
  have digit (d : Nat) (small : d < 10) : d.digitChar.toUInt8 = UInt8.ofNat (48 + d) := by
    revert d
    decide
  rw [decimal, decimal, Nat.toDigits_eq_if (by decide)]
  split
  · simp [digit n (by omega), Nat.mod_eq_of_lt (by omega : n < 10)]
  · simp [digit (n % 10) (Nat.mod_lt _ (by decide))]

theorem decimal_ne_nil (n : Nat) : decimal n ≠ [] := by
  rw [decimal_eq]
  simp

theorem isdigit_of_mem_decimal {n : Nat} {c : Byte} (member : c ∈ decimal n) :
    isdigit c = true := by
  have digit (d : Nat) (small : d < 10) : isdigit (UInt8.ofNat (48 + d)) = true := by
    revert d
    decide
  induction n using Nat.strong_induction_on with
  | _ n induction =>
      rw [decimal_eq] at member
      rcases List.mem_append.mp member with earlier | last
      · split at earlier
        · simp at earlier
        · exact induction (n / 10) (by omega) earlier
      · rw [List.mem_singleton.mp last]
        exact digit (n % 10) (by omega)

/-- The value of a word of decimal digits. -/
def digitsValue (s : Bytes) : Nat := s.foldl (fun value c => value * 10 + (c.toNat - 48)) 0

theorem digitsValue_decimal (n : Nat) : digitsValue (decimal n) = n := by
  induction n using Nat.strong_induction_on with
  | _ n induction =>
      have last : (UInt8.ofNat (48 + n % 10)).toNat = 48 + n % 10 := by
        rw [UInt8.toNat_ofNat']
        omega
      rw [decimal_eq, digitsValue, List.foldl_append, List.foldl_cons, List.foldl_nil, last]
      split
      · simp only [List.foldl_nil]
        omega
      · have front := induction (n / 10) (by omega)
        rw [digitsValue] at front
        rw [front]
        omega

/-! ## `sscanf` -/

/-- A number read by `strtol` into 64 bits and stored into an `int`. -/
def narrowInt (value : Int) : Int :=
  (max (-2 ^ 63) (min value (2 ^ 63 - 1))).bmod (2 ^ 32)

/-- The text behind an optional sign. -/
def unsigned : Bytes → Bytes
  | c :: s => if c = ch '-' ∨ c = ch '+' then s else c :: s
  | [] => []

/-- `sscanf( s, "%d", &line )`: what is assigned, if anything is. -/
def sscanfInt (s : Bytes) : Option Int :=
  let s := s.dropWhile isspace
  let digits := (unsigned s).takeWhile isdigit
  if digits = [] then none
  else some (narrowInt (if s.headD 0 = ch '-' then -digitsValue digits else digitsValue digits))

/-- Scanning stops at a byte that belongs to no numeral. -/
theorem sscanfInt_append {c : Byte} (space : isspace c = false) (digit : isdigit c = false)
    (sign : c ≠ ch '-' ∧ c ≠ ch '+') (front back : Bytes) :
    sscanfInt (front ++ c :: back) = sscanfInt front := by
  have stops (s : Bytes) : (s ++ c :: back).takeWhile isdigit = s.takeWhile isdigit := by
    rw [List.takeWhile_append]
    split
    · rename_i whole
      rw [List.takeWhile_cons_of_neg (by simp [digit]), List.append_nil,
        (List.takeWhile_prefix isdigit).eq_of_length whole]
    · rfl
  have skipped : (front ++ c :: back).dropWhile isspace = front.dropWhile isspace ++ c :: back := by
    rw [List.dropWhile_append]
    split
    · rename_i blank
      rw [List.dropWhile_cons_of_neg (by simp [space]), List.isEmpty_iff.mp blank]
      rfl
    · rfl
  simp only [sscanfInt, skipped]
  cases front.dropWhile isspace with
  | nil => simp [unsigned, sign, digit]
  | cons d s =>
      have rest : unsigned ((d :: s) ++ c :: back) = unsigned (d :: s) ++ c :: back := by
        rw [List.cons_append, unsigned, unsigned]
        split <;> rfl
      rw [rest, stops]
      rfl

/-- A C string is scanned like the text it is cut from. -/
theorem sscanfInt_cStr (s : Bytes) : sscanfInt (cStr s) = sscanfInt s := by
  have parts : cStr s ++ s.dropWhile (· != 0) = s := List.takeWhile_append_dropWhile
  cases rest : s.dropWhile (· != 0) with
  | nil => rw [rest, List.append_nil] at parts; rw [parts]
  | cons c back =>
      have zero : c = 0 := by
        have stopped := List.head?_dropWhile_not (· != 0) s
        rw [rest] at stopped
        simpa using stopped
      rw [rest, zero] at parts
      calc
        sscanfInt (cStr s) = sscanfInt (cStr s ++ 0 :: back) :=
          (sscanfInt_append (by decide) (by decide) (by decide) _ _).symm
        _ = sscanfInt s := by rw [parts]

/-- A numeral that fits is scanned to its value. -/
theorem sscanfInt_decimal {n : Nat} (fits : n < 2 ^ 31) :
    sscanfInt (decimal n) = some (n : Int) := by
  have plain (c : Byte) (digit : isdigit c = true) :
      isspace c = false ∧ c ≠ ch '-' ∧ c ≠ ch '+' := by
    revert c
    exact forall_byte (by decide +kernel)
  have digits : (decimal n).takeWhile isdigit = decimal n :=
    List.takeWhile_eq_self_iff.mpr fun c => isdigit_of_mem_decimal
  have narrow : narrowInt n = n := by
    have clamped : max (-2 ^ 63) (min (n : Int) (2 ^ 63 - 1)) = n := by omega
    rw [narrowInt, clamped]
    exact Int.bmod_eq_of_le (by omega) (by omega)
  obtain ⟨c, s, first⟩ := List.exists_cons_of_ne_nil (decimal_ne_nil n)
  obtain ⟨space, minus, plus⟩ :=
    plain c (isdigit_of_mem_decimal (n := n) (by rw [first]; exact List.mem_cons_self))
  have skipped : (decimal n).dropWhile isspace = decimal n := by
    rw [first, List.dropWhile_cons_of_neg (by simp [space])]
  have sign : unsigned (decimal n) = decimal n := by
    rw [first, unsigned, if_neg (by simp [minus, plus])]
  have positive : (decimal n).headD 0 ≠ ch '-' := by
    rw [first]
    exact minus
  simp only [sscanfInt, skipped, sign, digits, if_neg (decimal_ne_nil n), if_neg positive,
    digitsValue_decimal, narrow]

/-! ## Error messages -/

/-- Size of the buffer in `addinfo`. -/
def luaIdsize : Nat := 60

/-- Size of the buffer in `luaX_lexerror`. -/
def maxsrc : Nat := 80

/-- `luaO_chunkid`: the C string written to a buffer of `bufflen` bytes. -/
def luaOChunkid (source : Bytes) (bufflen : Nat) : Bytes :=
  let source := cStr source
  if source.headD 0 = ch '=' then source.tail.take (bufflen - 1)
  else if source.headD 0 = ch '@' then
    let source := source.tail
    let bufflen := bufflen - 8
    if source.length > bufflen then bytes "..." ++ source.drop (source.length - bufflen) else source
  else
    let bufflen := bufflen - 17
    let len := min (source.takeWhile fun c => c != 10 && c != 13).length bufflen
    bytes "[string \"" ++
      (if len < source.length then source.take len ++ bytes "..." else source) ++ bytes "\"]"

/-- The place where a position is put in front of a message. -/
inductive Reporter where
  /-- `addinfo`, for runtime errors -/
  | addinfo
  /-- `luaX_lexerror`, for syntax errors -/
  | lexerror
  deriving DecidableEq

/-- The chunk id that a reporter writes. -/
def Reporter.chunkid (reporter : Reporter) (source : Bytes) : Bytes :=
  match reporter with
  | .addinfo => luaOChunkid source luaIdsize
  | .lexerror => luaOChunkid source maxsrc

/-- `luaO_pushfstring(L, "%s:%d: %s", buff, line, msg)` -/
def Reporter.message (reporter : Reporter) (source : Bytes) (line : Nat) (msg : Bytes) : Bytes :=
  reporter.chunkid source ++ bytes ":" ++ decimal line ++ bytes ": " ++ msg

/-! ## `lua::exception` -/

/-- `lua::exception` -/
structure Exception where
  /-- `msg_` -/
  msg : Bytes
  /-- `line_`; `none` when the constructor never assigned it -/
  line : Option Int
  /-- `error_` -/
  error : Bytes
  deriving DecidableEq

/-- The constructor of `lua::exception`. -/
def Exception.new (msg : Bytes) : Exception :=
  match find (bytes "]:") msg with
  | none => { msg, line := some 0, error := msg }
  | some i =>
      { msg
        line := sscanfInt (cStr (msg.drop (i + 2)))
        error := match rfind (bytes ": ") msg with
          | some i => msg.drop (i + 2)
          | none => msg }

/-- Without a bracket and a colon the message is taken whole. -/
theorem Exception.new_of_absent {msg : Bytes} (absent : ¬bytes "]:" <:+: msg) :
    Exception.new msg = { msg, line := some 0, error := msg } := by
  rw [Exception.new, find_eq_none_iff.mpr absent]

/-- The line is read behind the first bracket and colon. -/
theorem Exception.new_line {front back : Bytes} (first : ¬bytes "]:" <:+: front) :
    (Exception.new (front ++ bytes "]:" ++ back)).line = sscanfInt back := by
  have found : find (bytes "]:") (front ++ bytes "]:" ++ back) = some front.length := by
    rw [List.append_assoc]
    exact find_of_first (by decide) first
  simp only [Exception.new, found]
  rw [sscanfInt_cStr, List.append_assoc, List.drop_length_add_append]
  rfl

/-- The error text is what follows the last colon and space. -/
theorem Exception.new_error {front back : Bytes} (last : ¬bytes ": " <:+: back)
    (located : bytes "]:" <:+: front ++ bytes ": " ++ back) :
    (Exception.new (front ++ bytes ": " ++ back)).error = back := by
  have found : rfind (bytes ": ") (front ++ bytes ": " ++ back) = some front.length := by
    rw [List.append_assoc]
    exact rfind_of_last (by decide) last
  rw [Exception.new]
  split
  · rename_i missed
    exact absurd located (find_eq_none_iff.mp missed)
  · simp only [found]
    rw [List.append_assoc, List.drop_length_add_append]
    rfl

/-! ## Reading a position back -/

/-- The first bracket and colon of a text is followed by the numeral `n`. -/
def ReadsLine (text : Bytes) (n : Nat) : Prop :=
  ∃ front back, text = front ++ bytes "]:" ++ back ∧ ¬bytes "]:" <:+: front ∧
    sscanfInt back = some (n : Int)

/-- When a position is read back: no colon and space in the message, and the first bracket and
colon either closes the chunk id or happens to stand before the very same number. -/
def Readable (chunkid : Bytes) (n : Nat) (m : Bytes) : Prop :=
  ¬bytes ": " <:+: m ∧
    (if bytes "]:" <:+: chunkid then ReadsLine chunkid n
    else chunkid.getLast? = some (ch ']') ∨ ReadsLine m n)

theorem exists_line_cut {text : Bytes} (located : bytes "]:" <:+: text) :
    ∃ front back, text = front ++ bytes "]:" ++ back ∧ ¬bytes "]:" <:+: front := by
  obtain ⟨front, back, whole, first⟩ : ∃ front back, text = front ++ ch ']' :: ch ':' :: back ∧
      ¬[ch ']', ch ':'] <:+: front := exists_first located
  exact ⟨front, back, by rw [whole, List.append_assoc]; rfl, first⟩

private theorem exists_text_cut {text : Bytes} (occurs : bytes ": " <:+: text) :
    ∃ front back, text = front ++ bytes ": " ++ back ∧ ¬bytes ": " <:+: back := by
  obtain ⟨front, back, whole, last⟩ : ∃ front back, text = front ++ ch ':' :: ch ' ' :: back ∧
      ¬[ch ':', ch ' '] <:+: back := exists_last occurs
  exact ⟨front, back, by rw [whole, List.append_assoc]; rfl, last⟩

/-- A text with a bracket and colon has its line read behind the first one. -/
private theorem line_eq_some_iff {text : Bytes} (located : bytes "]:" <:+: text) (n : Nat) :
    (Exception.new text).line = some (n : Int) ↔ ReadsLine text n := by
  constructor
  · intro read
    obtain ⟨front, back, rfl, first⟩ := exists_line_cut located
    rw [Exception.new_line first] at read
    exact ⟨front, back, rfl, first, read⟩
  · rintro ⟨front, back, rfl, first, read⟩
    rw [Exception.new_line first, read]

/-- What follows a located text after a colon does not change its line. -/
private theorem line_append {text : Bytes} (located : bytes "]:" <:+: text) (rest : Bytes) :
    (Exception.new (text ++ ch ':' :: rest)).line = (Exception.new text).line := by
  obtain ⟨front, back, rfl, first⟩ := exists_line_cut located
  rw [Exception.new_line first, List.append_assoc, Exception.new_line first,
    sscanfInt_append (by decide) (by decide) (by decide)]

/-- A text in front of a located one, and not seamed with it, does not change its line. -/
private theorem line_of_append {front text : Bytes} (located : bytes "]:" <:+: text)
    (absent : ¬bytes "]:" <:+: front) (seam : front.getLast? ≠ some (ch ']')) :
    (Exception.new (front ++ text)).line = (Exception.new text).line := by
  obtain ⟨before, back, rfl, first⟩ := exists_line_cut located
  have first' : ¬bytes "]:" <:+: front ++ before := by
    intro occurs
    rcases pair_infix_append.mp occurs with inside | across | inside
    · exact absent inside
    · exact seam across.1
    · exact first inside
  rw [Exception.new_line first, ← List.append_assoc, ← List.append_assoc,
    Exception.new_line first']

section Message

variable (reporter : Reporter) (s m : Bytes) {n : Nat}

/-- The position between the chunk id and the message. -/
private def position (n : Nat) : Bytes := ch ':' :: (decimal n ++ bytes ": ")

private theorem message_eq :
    reporter.message s n m = reporter.chunkid s ++ position n ++ m := by
  simp [Reporter.message, position, bytes]

private theorem position_absent (n : Nat) :
    ¬bytes "]:" <:+: position n ∧ (position n).getLast? = some (ch ' ') := by
  constructor
  · refine not_infix_of_notMem (show ch ']' ∈ bytes "]:" by decide) fun member => ?_
    simp only [position, List.mem_cons, List.mem_append] at member
    rcases member with same | digit | same
    · exact absurd same (by decide)
    · exact absurd (isdigit_of_mem_decimal digit) (by decide)
    · exact absurd same (by decide)
  · have last : position n = (ch ':' :: (decimal n ++ [ch ':'])) ++ [ch ' '] := by
      simp [position, bytes]
    rw [last, List.getLast?_concat]

/-- The separator occurs in the chunk id, behind it, or in the message. -/
private theorem located_iff :
    bytes "]:" <:+: reporter.message s n m ↔ bytes "]:" <:+: reporter.chunkid s ∨
      (reporter.chunkid s).getLast? = some (ch ']') ∨ bytes "]:" <:+: m := by
  obtain ⟨absent, last⟩ := position_absent n
  have inner : bytes "]:" <:+: position n ++ m ↔ bytes "]:" <:+: m := by
    rw [show bytes "]:" = [ch ']', ch ':'] from rfl, pair_infix_append, last]
    constructor
    · rintro (inside | across | inside)
      · exact absurd inside absent
      · exact absurd across.1 (by decide)
      · exact inside
    · exact fun inside => .inr (.inr inside)
  rw [message_eq, List.append_assoc, show bytes "]:" = [ch ']', ch ':'] from rfl,
    pair_infix_append]
  refine or_congr Iff.rfl (or_congr ?_ inner)
  exact and_iff_left rfl

/-- The line is read back when the first separator stands before it or before its double. -/
private theorem message_line_iff (fits : n < 2 ^ 31)
    (located : bytes "]:" <:+: reporter.message s n m) :
    (Exception.new (reporter.message s n m)).line = some (n : Int) ↔
      if bytes "]:" <:+: reporter.chunkid s then ReadsLine (reporter.chunkid s) n
      else (reporter.chunkid s).getLast? = some (ch ']') ∨ ReadsLine m n := by
  split
  · rename_i inside
    rw [message_eq, position, List.append_assoc, List.cons_append, line_append inside,
      line_eq_some_iff inside]
  · rename_i outside
    by_cases closed : (reporter.chunkid s).getLast? = some (ch ']')
    · obtain ⟨front, whole⟩ := List.getLast?_eq_some_iff.mp closed
      have first : ¬bytes "]:" <:+: front := fun occurs => outside (by
        rw [whole]
        exact List.infix_append_of_infix_left occurs)
      have cut : reporter.message s n m =
          front ++ bytes "]:" ++ (decimal n ++ ch ':' :: (ch ' ' :: m)) := by
        simp [message_eq, position, whole, bytes]
      rw [cut, Exception.new_line first, sscanfInt_append (by decide) (by decide) (by decide),
        sscanfInt_decimal fits]
      simp [closed]
    · have inside :=
        (((located_iff reporter s m).mp located).resolve_left outside).resolve_left closed
      obtain ⟨absent, last⟩ := position_absent n
      have front_absent : ¬bytes "]:" <:+: reporter.chunkid s ++ position n := by
        intro occurs
        rcases pair_infix_append.mp occurs with occurs | across | occurs
        · exact outside occurs
        · exact closed across.1
        · exact absent occurs
      have seam : (reporter.chunkid s ++ position n).getLast? ≠ some (ch ']') := by
        rw [List.getLast?_append, last, Option.some_or]
        decide
      rw [message_eq, line_of_append inside front_absent seam, line_eq_some_iff inside]
      simp [closed]

/-- The text is read back when the message holds no colon and space. -/
private theorem message_error_iff (located : bytes "]:" <:+: reporter.message s n m) :
    (Exception.new (reporter.message s n m)).error = m ↔ ¬bytes ": " <:+: m := by
  have cut : reporter.message s n m =
      reporter.chunkid s ++ bytes ":" ++ decimal n ++ bytes ": " ++ m := rfl
  constructor
  · intro read occurs
    obtain ⟨front, back, whole, last⟩ := exists_text_cut occurs
    have cut' : reporter.message s n m =
        (reporter.chunkid s ++ bytes ":" ++ decimal n ++ bytes ": " ++ front) ++ bytes ": " ++
          back := by
      rw [cut, whole]
      simp only [List.append_assoc]
    rw [cut', Exception.new_error last (cut' ▸ located)] at read
    have lengths := congrArg List.length (read.trans whole)
    rw [List.length_append, List.length_append] at lengths
    simp only [bytes] at lengths
    simp at lengths
  · intro last
    rw [cut, Exception.new_error last (cut ▸ located)]

/-- `lua::exception` reads the line and the text back from a message exactly when they are
readable in it. -/
theorem Exception.new_message_iff (fits : n < 2 ^ 31) :
    ((Exception.new (reporter.message s n m)).line = some (n : Int) ∧
      (Exception.new (reporter.message s n m)).error = m) ↔
      Readable (reporter.chunkid s) n m := by
  by_cases located : bytes "]:" <:+: reporter.message s n m
  · rw [message_line_iff reporter s m fits located, message_error_iff reporter s m located,
      Readable, and_comm]
  · have absent := located
    rw [located_iff, not_or, not_or] at absent
    rw [Exception.new_of_absent located]
    apply iff_of_false
    · rintro ⟨-, same⟩
      have lengths := congrArg List.length same
      simp only [Reporter.message, List.length_append] at lengths
      simp [bytes] at lengths
    · rintro ⟨-, read⟩
      rw [if_neg absent.1] at read
      rcases read with closed | ⟨front, back, rfl, -, -⟩
      · exact absent.2.1 closed
      · exact absent.2.2 ⟨front, back, rfl⟩

end Message

/-- A position in a plain script is read back. -/
theorem Exception.new_message_plain :
    (7 : Nat) < 2 ^ 31 ∧
      (((Exception.new (Reporter.addinfo.message (bytes "x = y.z") 7 (bytes "no field"))).line =
          some 7 ∧
        (Exception.new (Reporter.addinfo.message (bytes "x = y.z") 7 (bytes "no field"))).error =
          bytes "no field") ↔
        Readable (Reporter.addinfo.chunkid (bytes "x = y.z")) 7 (bytes "no field")) :=
  ⟨by decide, Exception.new_message_iff .addinfo (bytes "x = y.z") (bytes "no field") (by decide)⟩

/-- A script that mentions a table element before a colon hides its own position. -/
theorem Exception.new_message_hidden :
    ¬((Exception.new (Reporter.addinfo.message (bytes "t[i]:f()") 1 (bytes "boom"))).line = some 1 ∧
      (Exception.new (Reporter.addinfo.message (bytes "t[i]:f()") 1 (bytes "boom"))).error =
        bytes "boom") := by
  decide

end LuaScript
