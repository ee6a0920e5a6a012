import LuaScript.Hex

/-!
# Module `percent`

`lib/percent.lua`: control bytes written as a percent sign and two digits.  The encoder does not
escape the percent sign itself, so a text comes back exactly when no percent sign in it stands
before two hexadecimal digits.
-/

namespace LuaScript

open Fallible Scan Hex

namespace Percent

/-- `percent.encode` -/
def encode (v : Bytes) : Lua Bytes :=
  gsub v (bytes "(%c)") (.function (onText fun c => (bytes "%" ++ ·) <$> formatByte c))

/-- `percent.decode`; the callback packs its second argument. -/
def decode (v : Bytes) : Lua Bytes :=
  gsub v (bytes "(%%(%x%x))") (.function fun captures => onText pack captures.tail)

/-- The escape of one byte. -/
def escaped (c : Byte) : Bytes := digits [c]

/-- `encode` escapes every control byte. -/
theorem encode_eq (v : Bytes) : encode v = .ok (percentMarker.escape iscntrl escaped v) := by
  rw [encode, gsub_eq_scan (implements_cntrl _), Matcher.scan_eq_rewrite _
    (fun c => ch '%' :: escaped c), one_rewrite]
  · rfl
  · intro word c rest found
    simp [replaceText, onText, formatByte_singleton, escaped, bytes]

/-- `decode` packs the digits behind every percent sign. -/
theorem decode_eq (v : Bytes) : decode v = percentMarker.matcher.scan pack v := by
  have emits (digits : Bytes) : (fun text : Option Bytes => text.getD (ch '%' :: digits)) <$>
      onText pack [CapValue.text (ch '%' :: digits), .text digits].tail = pack digits := by
    rw [List.tail_cons, onText]
    cases pack digits <;> rfl
  rw [decode, gsub_eq_scan (implements_percent _)]
  simp only [emits]

theorem percentMarker_code : percentMarker.Code iscntrl escaped where
  mark_visible := by decide
  digit_visible := forall_byte (by decide +kernel)
  encode_length c := digits_length [c]
  encode_select c d := isxdigit_of_mem_digits

theorem percentMarker_shortening : percentMarker.matcher.Shortening pack := by
  intro word body rest image found packed
  obtain ⟨rfl, -, -⟩ := percentMarker.find_eq_some_iff.mp found
  have shorter := pack_length packed
  simp only [List.length_cons, List.length_append]
  omega

/-- The text `v` holds no percent sign before two hexadecimal digits. -/
def NoPercentGroup (v : Bytes) : Prop :=
  ¬∃ front high low back, v = front ++ bytes "%" ++ [high, low] ++ back ∧
    isxdigit high = true ∧ isxdigit low = true

theorem free_iff_noPercentGroup (v : Bytes) : percentMarker.matcher.Free v ↔ NoPercentGroup v := by
  rw [percentMarker.free_iff, NoPercentGroup, not_iff_not]
  constructor
  · rintro ⟨front, body, back, rfl, width, selected⟩
    obtain ⟨high, low, rfl⟩ := List.length_eq_two.mp width
    exact ⟨front, high, low, back, by simp [percentMarker, bytes], selected high (by simp),
      selected low (by simp)⟩
  · rintro ⟨front, high, low, back, rfl, digit_high, digit_low⟩
    refine ⟨front, [high, low], back, by simp [percentMarker, bytes], rfl, ?_⟩
    simp [percentMarker, digit_high, digit_low]

/-- Decoding an encoded text is decoding the text itself. -/
theorem decode_encode_eq (v : Bytes) : (encode v >>= decode) = decode v := by
  rw [encode_eq, ok_bind, decode_eq, decode_eq,
    percentMarker_code.scan_escape fun c _ => pack_digits [c]]

/-- `Encoding v s`: the text `s` writes every byte of `v` either literally, unless it is a percent
sign, or as a percent sign and two digits of either case. -/
inductive Encoding : Bytes → Bytes → Prop where
  | nil : Encoding [] []
  | literal {c : Byte} {v s : Bytes} (plain : c ≠ ch '%') (rest : Encoding v s) :
      Encoding (c :: v) (c :: s)
  | escape {c high low : Byte} {v s : Bytes} (digit_high : isxdigit high = true)
      (digit_low : isxdigit low = true) (value : c.toNat = digitValue high * 16 + digitValue low)
      (rest : Encoding v s) : Encoding (c :: v) (ch '%' :: high :: low :: s)

/-- `pack` reads two digits as one byte. -/
theorem pack_two_digits {high low : Byte} (digit_high : isxdigit high = true)
    (digit_low : isxdigit low = true) :
    pack [high, low] = .ok [UInt8.ofNat (digitValue high * 16 + digitValue low)] := by
  have all : ∀ c ∈ [high, low], isxdigit c = true := by simp [digit_high, digit_low]
  rw [pack_eq_ok_iff, strip_of_digits all]
  exact ⟨Nat.mod_self 2, all, rfl⟩

/-- A percent sign before two digits is decoded to one byte, wherever it stands. -/
theorem decode_total (s : Bytes) : decode s = .ok (percentMarker.matcher.rewrite pairs s) := by
  rw [decode_eq]
  refine Matcher.scan_eq_rewrite _ pairs (fun word body rest found => ?_) s
  obtain ⟨-, width, selected⟩ := percentMarker.find_eq_some_iff.mp found
  obtain ⟨high, low, rfl⟩ := List.length_eq_two.mp width
  rw [pack_two_digits (selected high (by simp)) (selected low (by simp))]
  rfl

/-- Every encoding is decoded to the text it writes. -/
theorem Encoding.decode_eq {v s : Bytes} (encoding : Encoding v s) : decode s = .ok v := by
  rw [decode_total]
  induction encoding with
  | nil => rw [Matcher.rewrite_nil]
  | @literal c v s plain rest induction =>
      have missed : percentMarker.matcher.find (c :: s) = none := by
        by_contra hit
        obtain ⟨⟨body, back⟩, hit⟩ := Option.ne_none_iff_exists'.mp hit
        exact plain (List.cons.inj (percentMarker.find_eq_some_iff.mp hit).1).1
      rw [Matcher.rewrite_miss _ _ missed, Except.ok.inj induction]
  | @escape c high low v s digit_high digit_low value rest induction =>
      have found : percentMarker.matcher.find (ch '%' :: high :: low :: s) =
          some ([high, low], s) :=
        percentMarker.find_eq_some_iff.mpr ⟨rfl, rfl, by simp [percentMarker, digit_high, digit_low]⟩
      rw [Matcher.rewrite_hit _ _ found, Except.ok.inj induction, pairs, ← value,
        UInt8.ofNat_toNat]
      rfl

end Percent

end LuaScript
