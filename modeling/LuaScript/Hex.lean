import LuaScript.GSub
import LuaScript.Lib.Pieces

/-!
# Module `hex`

`lib/hex.lua`: hexadecimal dumps of byte strings, and their inverses.  `pack` reads the digits of a
word without its white space; `smart_dump` and `smart_pack` escape control bytes in brackets.
-/

namespace LuaScript

open Fallible Scan

namespace Hex

/-- A callback of one string argument, for `gsub`. -/
def onText (f : Bytes → Lua Bytes) : List CapValue → Lua (Option Bytes)
  | .text c :: _ => some <$> f c
  | _ => .error (bytes "attempt to index a number value")

/-- `string.format( "%02X", c:byte(1) )` -/
def formatByte (c : Bytes) : Lua Bytes :=
  match strByte c 1 with
  | some value => .ok (strFormat [.X02 value.toNat])
  | none => .error (bytes "bad argument #2 to 'format' (number expected, got no value)")

/-- `hex.dump`; a missing argument is `nil`. -/
def dump (v : Bytes) (delimiter stx etx : Option Bytes) : Lua Bytes := do
  let delimiter := delimiter.getD []
  let dump ← gsub v (bytes "(.)") (.function (onText fun c => (delimiter ++ ·) <$> formatByte c))
  let dump := strSub dump (1 + delimiter.length) (-1)
  let dump := match stx with
    | some stx => stx ++ dump
    | none => dump
  let dump := match etx with
    | some etx => dump ++ etx
    | none => dump
  return dump

/-- `hex.smart_dump` -/
def smartDump (v : Bytes) : Lua Bytes :=
  gsub v (bytes "%c+") (.function (onText fun raw =>
    dump raw (some []) (some (bytes "<")) (some (bytes ">"))))

/-- The digit values of `pack`, indexed from one. -/
def packTable : List Int := [
   --  0   1   2   3   4   5   6   7   8   9   A   B   C   D   E   F
   -1, -1, -1, -1, -1, -1, -1, -1, -1, -1, -1, -1, -1, -1, -1, -1,  -- 00
   -1, -1, -1, -1, -1, -1, -1, -1, -1, -1, -1, -1, -1, -1, -1, -1,  -- 10
   -1, -1, -1, -1, -1, -1, -1, -1, -1, -1, -1, -1, -1, -1, -1, -1,  -- 20
    0,  1,  2,  3,  4,  5,  6,  7,  8,  9, -1, -1, -1, -1, -1, -1,  -- 30
   -1, 10, 11, 12, 13, 14, 15, -1, -1, -1, -1, -1, -1, -1, -1, -1,  -- 40
   -1, -1, -1, -1, -1, -1, -1, -1, -1, -1, -1, -1, -1, -1, -1, -1,  -- 50
   -1, 10, 11, 12, 13, 14, 15, -1, -1, -1, -1, -1, -1, -1, -1, -1,  -- 60
   -1, -1, -1, -1, -1, -1, -1, -1, -1, -1, -1, -1, -1, -1, -1, -1,  -- 70
   -1, -1, -1, -1, -1, -1, -1, -1, -1, -1, -1, -1, -1, -1, -1, -1,  -- 80
   -1, -1, -1, -1, -1, -1, -1, -1, -1, -1, -1, -1, -1, -1, -1, -1,  -- 90
   -1, -1, -1, -1, -1, -1, -1, -1, -1, -1, -1, -1, -1, -1, -1, -1,  -- A0
   -1, -1, -1, -1, -1, -1, -1, -1, -1, -1, -1, -1, -1, -1, -1, -1,  -- B0
   -1, -1, -1, -1, -1, -1, -1, -1, -1, -1, -1, -1, -1, -1, -1, -1,  -- C0
   -1, -1, -1, -1, -1, -1, -1, -1, -1, -1, -1, -1, -1, -1, -1, -1,  -- D0
   -1, -1, -1, -1, -1, -1, -1, -1, -1, -1, -1, -1, -1, -1, -1, -1,  -- E0
   -1, -1, -1, -1, -1, -1, -1, -1, -1, -1, -1, -1, -1, -1, -1, -1   -- F0
   ]

/-- The loop body of `pack`: the text so far and the high digit, `-1` when there is none. -/
def packStep (state : Bytes × Int) (i : Nat) (c : Byte) : Lua (Bytes × Int) :=
  match packTable[c.toNat + 1 - 1]? with
  | none => .error (bytes "attempt to compare number with nil")
  | some value =>
      if value > -1 then
        if state.2 = -1 then .ok (state.1, value * 16)
        else (fun text => (state.1 ++ text, -1)) <$> strChar (state.2 + value)
      else .error (bytes "hex.pack(), non-hex char '" ++ strFormat [.c c] ++
        bytes "' at position " ++ decimal i)

/-- `hex.pack` -/
def pack (v : Bytes) : Lua Bytes := do
  let v ← gsub v (bytes "%s+") (.string [])
  if v.length % 2 = 0 then Prod.fst <$> forBytes v packStep ([], -1)
  else .error (bytes "Length '" ++ v ++ bytes "' (" ++ decimal v.length ++ bytes ") length is odd")

/-- `hex.smart_pack` -/
def smartPack (v : Bytes) : Lua Bytes := gsub v (bytes "<(%x+)>") (.function (onText pack))

/-! ## Dumps -/

/-- The two upper-case digits of every byte. -/
def digits (v : Bytes) : Bytes :=
  v.flatMap fun c => [hexDigit (c.toNat / 16), hexDigit (c.toNat % 16)]

@[simp]
theorem digits_nil : digits [] = [] := rfl

@[simp]
theorem digits_cons (c : Byte) (v : Bytes) :
    digits (c :: v) = hexDigit (c.toNat / 16) :: hexDigit (c.toNat % 16) :: digits v := rfl

theorem formatByte_singleton (c : Byte) : formatByte [c] = .ok (digits [c]) := by
  rw [formatByte, show strByte [c] 1 = some c from strByte_pos [c] 0]
  simp [strFormat, FormatItem.add_X02]

/-- `dump` writes the digits of every byte, with the delimiter between them. -/
theorem dump_eq (v : Bytes) (delimiter stx etx : Option Bytes) :
    dump v delimiter stx etx =
      .ok (stx.getD [] ++ (v.flatMap fun c => delimiter.getD [] ++ digits [c]).drop
        (delimiter.getD []).length ++ etx.getD []) := by
  have visited : gsub v (bytes "(.)")
      (.function (onText fun c => (delimiter.getD [] ++ ·) <$> formatByte c)) =
      .ok (v.flatMap fun c => delimiter.getD [] ++ digits [c]) := by
    rw [gsub_eq_scan (implements_any _), Matcher.scan_eq_rewrite _
      (fun c => delimiter.getD [] ++ digits [c]), one_rewrite]
    · simp
    · intro word c rest found
      simp [replaceText, onText, formatByte_singleton]
  have first : (1 : Int) + (delimiter.getD []).length = ((delimiter.getD []).length + 1 : Nat) := by
    omega
  simp only [dump, visited, ok_bind, first, strSub_rest]
  cases stx <;> cases etx <;> simp [pure, Except.pure]

/-- `smart_dump` writes every maximal run of control bytes in brackets. -/
theorem smartDump_eq (v : Bytes) : smartDump v = .ok (hexBrackets.escape iscntrl digits v) := by
  rw [smartDump, gsub_eq_scan (implements_cntrl_run _)]
  refine Matcher.scan_eq_rewrite _ _ (fun word raw rest found => ?_) v
  simp [replaceText, onText, dump_eq, hexBrackets, digits, bytes]

/-! ## Reading digits -/

/-- The value of a hexadecimal digit. -/
def digitValue (c : Byte) : Nat :=
  if isdigit c then c.toNat - 48 else if isupper c then c.toNat - 55 else c.toNat - 87

/-- The table holds the digit values and marks every other byte. -/
theorem packTable_eq (c : Byte) :
    packTable[c.toNat + 1 - 1]? = some (if isxdigit c then (digitValue c : Int) else -1) := by
  revert c
  exact forall_byte (by decide +kernel)

theorem digitValue_lt (c : Byte) (digit : isxdigit c = true) : digitValue c < 16 := by
  revert c
  exact forall_byte (by decide +kernel)

/-- The bytes denoted by pairs of digits. -/
def pairs : Bytes → Bytes
  | high :: low :: rest => UInt8.ofNat (digitValue high * 16 + digitValue low) :: pairs rest
  | _ => []

/-- What `pack` says about a byte that is not a digit. -/
def nonHex (c : Byte) (i : Nat) : Bytes :=
  bytes "hex.pack(), non-hex char '" ++ strFormat [.c c] ++ bytes "' at position " ++ decimal i

theorem packStep_of_not_digit {c : Byte} (foreign : isxdigit c = false) (state : Bytes × Int)
    (i : Nat) : packStep state i c = .error (nonHex c i) := by
  simp only [packStep, packTable_eq, foreign]
  rfl

theorem packStep_high {c : Byte} (digit : isxdigit c = true) (text : Bytes) (i : Nat) :
    packStep (text, -1) i c = .ok (text, digitValue c * 16) := by
  simp only [packStep, packTable_eq, digit, if_true]
  rw [if_pos (by omega)]

theorem packStep_low {high low : Byte} (digit_high : isxdigit high = true)
    (digit_low : isxdigit low = true) (text : Bytes) (i : Nat) :
    packStep (text, digitValue high * 16) i low =
      .ok (text ++ [UInt8.ofNat (digitValue high * 16 + digitValue low)], -1) := by
  have small_high := digitValue_lt high digit_high
  have small_low := digitValue_lt low digit_low
  simp only [packStep, packTable_eq, digit_low, if_true]
  rw [if_pos (by omega), if_neg (by omega), show (digitValue high : Int) * 16 + digitValue low =
    ((digitValue high * 16 + digitValue low : Nat) : Int) by push_cast; rfl,
    strChar_of_lt (by omega), ok_map]

/-- The loop of `pack` over an even number of digits. -/
theorem packLoop_of_digits : ∀ (v : Bytes) (k : Nat) (text : Bytes), v.length % 2 = 0 →
    (∀ c ∈ v, isxdigit c = true) →
    (v.zipIdx k).foldlM (fun state visit => packStep state visit.2 visit.1) (text, -1) =
      .ok (text ++ pairs v, -1)
  | [], k, text, _, _ => by simp [pairs, pure, Except.pure]
  | [c], k, text, even, _ => by simp at even
  | high :: low :: rest, k, text, even, all => by
      have digit_high := all high (by simp)
      have digit_low := all low (by simp)
      have remaining := packLoop_of_digits rest (k + 1 + 1)
        (text ++ [UInt8.ofNat (digitValue high * 16 + digitValue low)])
        (by simp only [List.length_cons] at even; omega)
        (fun c member => all c (by simp [member]))
      rw [List.zipIdx_cons, List.zipIdx_cons, List.foldlM_cons, packStep_high digit_high, ok_bind,
        List.foldlM_cons, packStep_low digit_high digit_low, ok_bind, remaining, pairs]
      simp

/-- What the loop of `pack` holds as its high digit: none, or the value of one. -/
def HighDigit (first : Int) : Prop :=
  first = -1 ∨ ∃ c, isxdigit c = true ∧ first = digitValue c * 16

/-- A digit never makes the loop of `pack` fail. -/
theorem packStep_of_digit {c : Byte} (digit : isxdigit c = true) (text : Bytes) {first : Int}
    (high : HighDigit first) (i : Nat) :
    ∃ text' first', packStep (text, first) i c = .ok (text', first') ∧ HighDigit first' := by
  rcases high with rfl | ⟨d, digit_high, rfl⟩
  · exact ⟨_, _, packStep_high digit text i, .inr ⟨c, digit, rfl⟩⟩
  · exact ⟨_, _, packStep_low digit_high digit text i, .inl rfl⟩

/-- The loop of `pack` fails at the first byte that is not a digit. -/
theorem packLoop_of_foreign {v : Bytes} (foreign : ∃ c ∈ v, isxdigit c = false) (k : Nat)
    (text : Bytes) {first : Int} (high : HighDigit first) :
    ∃ front c back, v = front ++ c :: back ∧ (∀ d ∈ front, isxdigit d = true) ∧
      isxdigit c = false ∧
      (v.zipIdx k).foldlM (fun state visit => packStep state visit.2 visit.1) (text, first) =
        .error (nonHex c (k + front.length)) := by
  induction v generalizing k text first with
  | nil => simp at foreign
  | cons c v induction =>
      rw [List.zipIdx_cons, List.foldlM_cons]
      cases digit : isxdigit c with
      | false =>
          refine ⟨[], c, v, rfl, by simp, digit, ?_⟩
          rw [packStep_of_not_digit digit, error_bind]
          rfl
      | true =>
          have later : ∃ c ∈ v, isxdigit c = false := by
            obtain ⟨d, member, reject⟩ := foreign
            rcases List.mem_cons.mp member with rfl | member
            · rw [digit] at reject
              exact absurd reject (by decide)
            · exact ⟨d, member, reject⟩
          obtain ⟨text', first', stepped, high'⟩ := packStep_of_digit digit text high k
          obtain ⟨front, d, back, rfl, all, reject, failed⟩ :=
            induction later (k + 1) text' high'
          refine ⟨c :: front, d, back, rfl, ?_, reject, ?_⟩
          · rintro e (_ | ⟨_, member⟩)
            · exact digit
            · exact all e member
          · rw [stepped, ok_bind, failed, List.length_cons, Nat.add_assoc, Nat.add_comm 1]

/-- The text that `pack` reads: its argument without white space. -/
def strip (v : Bytes) : Bytes := v.filter (!isspace ·)

theorem gsub_strip (v : Bytes) : gsub v (bytes "%s+") (.string []) = .ok (strip v) := by
  rw [gsub_eq_scan implements_space_run,
    Matcher.scan_eq_rewrite _ (fun _ => []) fun _ _ _ _ => rfl, run_rewrite_nil, strip]

/-- `pack` accepts the words with an even number of digits and white space. -/
theorem pack_eq_ok_iff (v image : Bytes) :
    pack v = .ok image ↔
      (strip v).length % 2 = 0 ∧ (∀ c ∈ strip v, isxdigit c = true) ∧ image = pairs (strip v) := by
  rw [pack, gsub_strip, ok_bind, forBytes_eq]
  by_cases even : (strip v).length % 2 = 0
  · rw [if_pos even]
    by_cases all : ∀ c ∈ strip v, isxdigit c = true
    · rw [packLoop_of_digits _ _ _ even all]
      simp only [ok_map, List.nil_append, Except.ok.injEq]
      exact ⟨fun same => ⟨even, all, same.symm⟩, fun accepted => accepted.2.2.symm⟩
    · push Not at all
      obtain ⟨_, c, _, -, -, -, failed⟩ := packLoop_of_foreign (by simpa using all) 1 [] (.inl rfl)
      simp only [failed, error_map, reduceCtorEq, false_iff]
      rintro ⟨-, accepted, -⟩
      obtain ⟨c, member, reject⟩ := all
      exact reject (accepted c member)
  · rw [if_neg even]
    simp [even]

/-- What `pack` says about an odd number of digits. -/
def oddLength (v : Bytes) : Bytes :=
  bytes "Length '" ++ v ++ bytes "' (" ++ decimal v.length ++ bytes ") length is odd"

/-- `pack` fails on an odd length or at the first byte that is not a digit, and for no other reason:
the table has an entry for every byte, and every pair of digits is a byte. -/
theorem message_of_pack_eq_error {v message : Bytes} (failed : pack v = .error message) :
    ((strip v).length % 2 = 1 ∧ message = oddLength (strip v)) ∨
      ∃ front c back, strip v = front ++ c :: back ∧ (∀ d ∈ front, isxdigit d = true) ∧
        isxdigit c = false ∧ message = nonHex c (1 + front.length) := by
  rw [pack, gsub_strip, ok_bind, forBytes_eq] at failed
  by_cases even : (strip v).length % 2 = 0
  · rw [if_pos even] at failed
    by_cases all : ∀ c ∈ strip v, isxdigit c = true
    · rw [packLoop_of_digits _ _ _ even all, ok_map] at failed
      cases failed
    · push Not at all
      obtain ⟨front, c, back, whole, digits, reject, stopped⟩ :=
        packLoop_of_foreign (by simpa using all) 1 [] (.inl rfl)
      rw [stopped, error_map] at failed
      exact .inr ⟨front, c, back, whole, digits, reject, (Except.error.inj failed).symm⟩
  · rw [if_neg even] at failed
    exact .inl ⟨by omega, (Except.error.inj failed).symm⟩

theorem pairs_length (v : Bytes) : (pairs v).length = v.length / 2 := by
  induction v using pairs.induct with
  | case1 high low rest induction =>
      simp only [pairs, List.length_cons, induction]
      omega
  | case2 v short =>
      rcases v with - | ⟨c, - | ⟨d, rest⟩⟩
      · rfl
      · simp [pairs]
      · exact absurd rfl (short c d rest)

/-- Dumping pairs of digits gives them back in upper case. -/
theorem digits_pairs {v : Bytes} (even : v.length % 2 = 0) (all : ∀ c ∈ v, isxdigit c = true) :
    digits (pairs v) = v.map toupper := by
  have upper (c : Byte) : isxdigit c = true → hexDigit (digitValue c) = toupper c := by
    revert c
    exact forall_byte (by decide +kernel)
  induction v using pairs.induct with
  | case1 high low rest induction =>
      have digit_high := all high (by simp)
      have digit_low := all low (by simp)
      have small_high := digitValue_lt high digit_high
      have small_low := digitValue_lt low digit_low
      have value : (UInt8.ofNat (digitValue high * 16 + digitValue low)).toNat =
          digitValue high * 16 + digitValue low := by
        rw [UInt8.toNat_ofNat', Nat.mod_eq_of_lt (by omega)]
      have first : (digitValue high * 16 + digitValue low) / 16 = digitValue high := by omega
      have second : (digitValue high * 16 + digitValue low) % 16 = digitValue low := by omega
      have remaining := induction (by simp only [List.length_cons] at even; omega)
        fun c member => all c (by simp [member])
      rw [pairs, digits_cons, value, first, second, upper high digit_high, upper low digit_low,
        remaining]
      rfl
  | case2 v short =>
      rcases v with - | ⟨c, - | ⟨d, rest⟩⟩
      · rfl
      · simp at even
      · exact absurd rfl (short c d rest)

/-- A packed word is at most half as long. -/
theorem pack_length {v image : Bytes} (packed : pack v = .ok image) :
    2 * image.length ≤ v.length := by
  obtain ⟨-, -, rfl⟩ := (pack_eq_ok_iff v image).mp packed
  have stripped := List.length_filter_le (!isspace ·) v
  rw [pairs_length]
  rw [strip]
  omega

theorem digits_length (v : Bytes) : (digits v).length = 2 * v.length := by
  induction v with
  | nil => rfl
  | cons c v induction =>
      rw [digits_cons, List.length_cons, List.length_cons, induction, List.length_cons]
      omega

theorem isxdigit_of_mem_digits {v : Bytes} {c : Byte} (member : c ∈ digits v) :
    isxdigit c = true := by
  have halves (d : Byte) : isxdigit (hexDigit (d.toNat / 16)) = true ∧
      isxdigit (hexDigit (d.toNat % 16)) = true := by
    revert d
    exact forall_byte (by decide +kernel)
  obtain ⟨d, -, half⟩ := List.mem_flatMap.mp member
  rcases List.mem_pair.mp half with rfl | rfl
  · exact (halves d).1
  · exact (halves d).2

theorem pairs_digits (v : Bytes) : pairs (digits v) = v := by
  have value (c : Byte) : UInt8.ofNat (digitValue (hexDigit (c.toNat / 16)) * 16 +
      digitValue (hexDigit (c.toNat % 16))) = c := by
    revert c
    exact forall_byte (by decide +kernel)
  induction v with
  | nil => rfl
  | cons c v induction => rw [digits_cons, pairs, value, induction]

theorem isspace_of_isxdigit (c : Byte) (digit : isxdigit c = true) : isspace c = false := by
  revert c
  exact forall_byte (by decide +kernel)

theorem strip_of_digits {v : Bytes} (all : ∀ c ∈ v, isxdigit c = true) : strip v = v :=
  List.filter_eq_self.mpr fun c member => by rw [isspace_of_isxdigit c (all c member)]; rfl

/-- `pack` inverts the dump of digits. -/
theorem pack_digits (v : Bytes) : pack (digits v) = .ok v := by
  have all : ∀ c ∈ digits v, isxdigit c = true := fun c => isxdigit_of_mem_digits
  rw [pack_eq_ok_iff, strip_of_digits all, pairs_digits, digits_length]
  exact ⟨by omega, all, rfl⟩

/-! ## Dumping and packing -/

/-- A missing argument, or one of white space. -/
def Blank (s : Option Bytes) : Prop := ∀ c ∈ s.getD [], isspace c = true

instance (s : Option Bytes) : Decidable (Blank s) :=
  List.decidableBAll (fun c => isspace c = true) (s.getD [])

theorem strip_append (front back : Bytes) : strip (front ++ back) = strip front ++ strip back :=
  List.filter_append ..

theorem Blank.strip_eq {s : Option Bytes} (blank : Blank s) : strip (s.getD []) = [] :=
  List.filter_eq_nil_iff.mpr fun c member => by simp [blank c member]

theorem strip_digits (v : Bytes) : strip (digits v) = digits v :=
  strip_of_digits fun _ => isxdigit_of_mem_digits

/-- Between blank delimiters only the digits are left. -/
theorem strip_delimited {delimiter : Option Bytes} (blank : Blank delimiter) (v : Bytes) :
    strip (v.flatMap fun c => delimiter.getD [] ++ digits [c]) = digits v := by
  induction v with
  | nil => rfl
  | cons c v induction =>
      rw [List.flatMap_cons, strip_append, strip_append, induction, blank.strip_eq, strip_digits]
      rfl

/-- `dump` puts no delimiter in front of the first byte. -/
theorem strip_drop_delimited {delimiter : Option Bytes} (blank : Blank delimiter) (v : Bytes) :
    strip ((v.flatMap fun c => delimiter.getD [] ++ digits [c]).drop (delimiter.getD []).length) =
      digits v := by
  cases v with
  | nil => rw [List.flatMap_nil, List.drop_nil]; rfl
  | cons c v =>
      rw [List.flatMap_cons, List.append_assoc, List.drop_left, strip_append,
        strip_delimited blank, strip_digits]
      rfl

theorem dump_plain (v : Bytes) : dump v none none none = .ok (digits v) := by
  rw [dump_eq]
  simp [digits]

/-- When `pack` fails. -/
theorem pack_fails_iff (s : Bytes) :
    (∃ message, pack s = .error message) ↔
      (strip s).length % 2 = 1 ∨ ∃ c ∈ strip s, isxdigit c = false := by
  constructor
  · rintro ⟨message, failed⟩
    obtain ⟨odd, -⟩ | ⟨front, c, back, whole, -, reject, -⟩ := message_of_pack_eq_error failed
    · exact .inl odd
    · exact .inr ⟨c, by rw [whole]; simp, reject⟩
  · intro refused
    cases packed : pack s with
    | error message => exact ⟨message, rfl⟩
    | ok image =>
        obtain ⟨even, all, -⟩ := (pack_eq_ok_iff s image).mp packed
        rcases refused with odd | ⟨c, member, reject⟩
        · omega
        · rw [all c member] at reject
          cases reject

/-- `smart_pack` packs the groups of digits in brackets. -/
theorem smartPack_eq (v : Bytes) : smartPack v = hexBrackets.matcher.scan pack v := by
  have emits (body : Bytes) : (fun text : Option Bytes => text.getD (ch '<' :: (body ++ [ch '>'])))
      <$> onText pack [.text body] = pack body := by
    rw [onText]
    cases pack body <;> rfl
  rw [smartPack, gsub_eq_scan (implements_group _)]
  simp only [emits]

theorem hexBrackets_shortening : hexBrackets.matcher.Shortening pack := by
  intro word body rest image found packed
  obtain ⟨rfl, -, -⟩ := hexBrackets.find_eq_some_iff.mp found
  have shorter := pack_length packed
  simp only [List.length_cons, List.length_append]
  omega

/-- Control bytes and digits are a bracket code. -/
theorem hexBrackets_code {hide : Byte → Bool} (control : ∀ c, hide c = true → iscntrl c = true) :
    hexBrackets.Code hide digits := by
  have visible (c : Byte) (printable : iscntrl c = false) : hide c = false := by
    cases hidden : hide c with
    | false => rfl
    | true => rw [control c hidden] at printable; exact absurd printable (by decide)
  have digit_printable (c : Byte) : isxdigit c = true → iscntrl c = false := by
    revert c
    exact forall_byte (by decide +kernel)
  exact {
    opening_visible := visible _ (by decide)
    closing_visible := visible _ (by decide)
    body_visible := fun c digit => visible c (digit_printable c digit)
    encode_ne_nil := fun run nonempty => by
      cases run with
      | nil => exact absurd rfl nonempty
      | cons c run => simp
    encode_select := fun run c => isxdigit_of_mem_digits }

/-- Packing what a dumper of control bytes wrote is packing the text itself. -/
theorem smartPack_escape {hide : Byte → Bool} (control : ∀ c, hide c = true → iscntrl c = true)
    (v : Bytes) : smartPack (hexBrackets.escape hide digits v) = smartPack v := by
  rw [smartPack_eq, smartPack_eq,
    (hexBrackets_code control).scan_escape fun run _ _ => pack_digits run]

/-- The text `v` holds no group of digits in brackets. -/
def NoHexGroup (v : Bytes) : Prop :=
  ¬∃ front body back, v = front ++ bytes "<" ++ body ++ bytes ">" ++ back ∧ body ≠ [] ∧
    ∀ c ∈ body, isxdigit c = true

/-- `smart_pack` is the identity exactly on the texts without a group. -/
theorem smartPack_eq_self_iff (v : Bytes) : smartPack v = .ok v ↔ NoHexGroup v := by
  rw [smartPack_eq, hexBrackets_shortening.scan_eq_self_iff, hexBrackets.free_iff]
  simp only [NoHexGroup, hexBrackets, bytes, ch, List.append_assoc]
  rfl

/-- The text `v` holds an odd number of digits in brackets. -/
def OddHexGroup (v : Bytes) : Prop :=
  ∃ front body back, v = front ++ bytes "<" ++ body ++ bytes ">" ++ back ∧ body.length % 2 = 1 ∧
    ∀ c ∈ body, isxdigit c = true

/-- The bytes that a piece stands for: a group denotes the bytes of its digits. -/
def denoted : Brackets.Piece Byte → Bytes
  | .symbol c => [c]
  | .group body => pairs body

section Pieces

variable {s : Bytes} {pieces : List (Brackets.Piece Byte)}

/-- The groups of a cut hold digits. -/
theorem digits_of_group (cut : hexBrackets.Cut s pieces) {body : Bytes}
    (member : .group body ∈ pieces) : strip body = body ∧ ∀ c ∈ body, isxdigit c = true :=
  ⟨strip_of_digits (cut.valid body member).2, (cut.valid body member).2⟩

theorem oddHexGroup_iff (cut : hexBrackets.Cut s pieces) :
    OddHexGroup s ↔ ∃ body, .group body ∈ pieces ∧ body.length % 2 = 1 := by
  constructor
  · rintro ⟨front, body, back, rfl, odd, all⟩
    have nonempty : body ≠ [] := by
      rintro rfl
      cases odd
    obtain ⟨before, after, rfl, -⟩ :=
      cut.complete front body back (by simp [hexBrackets, bytes]) nonempty all
    exact ⟨body, by simp, odd⟩
  · rintro ⟨body, member, odd⟩
    obtain ⟨before, after, rfl⟩ := List.append_of_mem member
    refine ⟨before.flatMap hexBrackets.text, body, after.flatMap hexBrackets.text, ?_, odd,
      (digits_of_group cut member).2⟩
    rw [cut.whole]
    simp [Brackets.text, hexBrackets, bytes]

/-- `smart_pack` emits the pieces one by one. -/
theorem smartPack_of_cut (cut : hexBrackets.Cut s pieces) :
    smartPack s = List.flatten <$> pieces.mapM (Brackets.emitPiece pack) := by
  rw [smartPack_eq, cut.scan_eq pack]

theorem smartPack_of_even (cut : hexBrackets.Cut s pieces) (even : ¬OddHexGroup s) :
    smartPack s = .ok (pieces.flatMap denoted) := by
  rw [smartPack_of_cut cut, mapM_of_ok denoted, ok_map, List.flatMap_def]
  intro piece member
  cases piece with
  | symbol c => rfl
  | group body =>
      obtain ⟨stripped, all⟩ := digits_of_group cut member
      refine (pack_eq_ok_iff body _).mpr ⟨?_, by rwa [stripped], by rw [stripped]; rfl⟩
      rw [stripped]
      by_contra odd
      exact even ((oddHexGroup_iff cut).mpr ⟨body, member, by omega⟩)

theorem smartPack_of_odd (cut : hexBrackets.Cut s pieces) (odd : OddHexGroup s) :
    ∃ message, smartPack s = .error message := by
  obtain ⟨body, member, odd⟩ := (oddHexGroup_iff cut).mp odd
  obtain ⟨stripped, -⟩ := digits_of_group cut member
  obtain ⟨message, refused⟩ := (pack_fails_iff body).mpr (.inl (by rwa [stripped]))
  obtain ⟨message, failed⟩ := mapM_of_error member
    (show Brackets.emitPiece pack (.group body) = .error message from refused)
  exact ⟨message, by rw [smartPack_of_cut cut, failed, error_map]⟩

end Pieces

end Hex

end LuaScript
