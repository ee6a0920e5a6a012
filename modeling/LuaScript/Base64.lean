import LuaScript.LStrLib
import LuaScript.Lib.Bits

/-!
# Module `base64`

`lib/base64.lua`: the URL-safe base64 codec.  Both loops collect their result through
`string.format( '%s…' )`, which is a concatenation only for text without a NUL.  Encoded text has
none; decoded text may, and loses them.
-/

namespace LuaScript

open Fallible

namespace Base64

/-! ## The codec -/

/-- `base64chars` -/
def base64chars : List Byte := [
   ch 'A', ch 'B', ch 'C', ch 'D', ch 'E', ch 'F', ch 'G', ch 'H',
   ch 'I', ch 'J', ch 'K', ch 'L', ch 'M', ch 'N', ch 'O', ch 'P',
   ch 'Q', ch 'R', ch 'S', ch 'T', ch 'U', ch 'V', ch 'W', ch 'X',
   ch 'Y', ch 'Z', ch 'a', ch 'b', ch 'c', ch 'd', ch 'e', ch 'f',
   ch 'g', ch 'h', ch 'i', ch 'j', ch 'k', ch 'l', ch 'm', ch 'n',
   ch 'o', ch 'p', ch 'q', ch 'r', ch 's', ch 't', ch 'u', ch 'v',
   ch 'w', ch 'x', ch 'y', ch 'z', ch '0', ch '1', ch '2', ch '3',
   ch '4', ch '5', ch '6', ch '7', ch '8', ch '9', ch '-', ch '_']

/-- `base64chars[ n ] or "="` -/
def symbol (n : Nat) : Byte := base64chars.getD n (ch '=')

/-- The indices at which one iteration of `encode` reads `base64chars`, in the branches that it does
not take too; `bytes[1..3]` are assigned before they are read. -/
def encodeIndices (data : Bytes) (i : Nat) : List Nat :=
  let byte (k : Nat) : Nat := ((strByte (strSub data (i + k : Nat) (-1)) 1).map UInt8.toNat).getD 0
  [byte 1 / 4, byte 1 % 4 * 16 + byte 2 / 16, byte 2 % 16 * 4 + byte 3 / 64, byte 3 % 64]

/-- The loop body of `encode`. -/
def encodeStep (data result : Bytes) (i : Nat) : Lua Bytes :=
  let char (k : Nat) : Byte := symbol ((encodeIndices data i).getD k 0)
  .ok (strFormat [.s result, .s [char 0], .s [char 1],
    .s [if (data.length : Int) - i > 1 then char 2 else ch '='],
    .s [if (data.length : Int) - i > 2 then char 3 else ch '=']])

/-- `base64.encode` -/
def encode (data : Bytes) : Lua Bytes := (offsets 3 data.length).foldlM (encodeStep data) []

/-- `base64bytes`; the entry of `=` is `nil`, which is no entry. -/
def base64bytes : List (Byte × Nat) := [
   (ch 'A', 0), (ch 'B', 1), (ch 'C', 2), (ch 'D', 3), (ch 'E', 4), (ch 'F', 5), (ch 'G', 6),
   (ch 'H', 7), (ch 'I', 8), (ch 'J', 9), (ch 'K', 10), (ch 'L', 11), (ch 'M', 12), (ch 'N', 13),
   (ch 'O', 14), (ch 'P', 15), (ch 'Q', 16), (ch 'R', 17), (ch 'S', 18), (ch 'T', 19), (ch 'U', 20),
   (ch 'V', 21), (ch 'W', 22), (ch 'X', 23), (ch 'Y', 24), (ch 'Z', 25), (ch 'a', 26), (ch 'b', 27),
   (ch 'c', 28), (ch 'd', 29), (ch 'e', 30), (ch 'f', 31), (ch 'g', 32), (ch 'h', 33), (ch 'i', 34),
   (ch 'j', 35), (ch 'k', 36), (ch 'l', 37), (ch 'm', 38), (ch 'n', 39), (ch 'o', 40), (ch 'p', 41),
   (ch 'q', 42), (ch 'r', 43), (ch 's', 44), (ch 't', 45), (ch 'u', 46), (ch 'v', 47), (ch 'w', 48),
   (ch 'x', 49), (ch 'y', 50), (ch 'z', 51), (ch '0', 52), (ch '1', 53), (ch '2', 54), (ch '3', 55),
   (ch '4', 56), (ch '5', 57), (ch '6', 58), (ch '7', 59), (ch '8', 60), (ch '9', 61), (ch '-', 62),
   (ch '_', 63)]

/-- `base64bytes[ key ]` for a string key. -/
def base64byte : Bytes → Option Nat
  | [c] => base64bytes.lookup c
  | _ => none

/-- The loop body of `decode`; `chars[1..4]` are assigned before they are read. -/
def decodeStep (data result : Bytes) (i : Nat) : Lua Bytes :=
  let char (c : Nat) : Option Nat := base64byte (strSub data (i + c : Nat) (i + c : Nat))
  match char 1, char 2 with
  | some char1, some char2 => do
      let first ← strChar (char1 * 4 + char2 / 16 : Nat)
      let second ← strChar (char2 % 16 * 16 + (char 3).getD 0 / 4 : Nat)
      let third ← strChar ((char 3).getD 0 % 4 * 64 + (char 4).getD 0 : Nat)
      return strFormat [.s result, .s first, .s (if (char 3).isSome then second else []),
        .s (if (char 4).isSome then third else [])]
  | _, _ => .error (bytes "attempt to perform arithmetic on field '?' (a nil value)")

/-- `base64.decode` -/
def decode (data : Bytes) : Lua Bytes := (offsets 4 data.length).foldlM (decodeStep data) []

/-! ## Accumulation through `string.format` -/

section Accumulation

variable {step : Nat} (step_pos : 0 < step) (body : Bytes → Bytes → Nat → Lua Bytes)
  (piece : Bytes → Lua Bytes)
  (body_eq : ∀ data result i,
    body data result i = (fun text => strFormat [.s result, .lit text]) <$> piece (data.drop i))
  (clean : ∀ word text, piece word = .ok text → 0 ∉ text)

include step_pos body_eq clean

/-- Without a NUL in the accumulator, a loop only ever appends to it. -/
private theorem foldlM_append (data result : Bytes) (result_clean : 0 ∉ result) :
    (offsets step data.length).foldlM (body data) result =
      (result ++ ·) <$> (offsets step data.length).foldlM (body data) [] := by
  have local_body (word state : Bytes) (counter : Nat) :
      body word state (counter + step) = body (word.drop step) state counter := by
    rw [body_eq, body_eq, List.drop_drop, Nat.add_comm]
  induction length : data.length using Nat.strong_induction_on generalizing data result with
  | _ size induction =>
      subst length
      by_cases empty : data = []
      · simp [empty, pure, Except.pure]
      · have shorter : (data.drop step).length < data.length := by
          have nonempty := List.length_pos_iff.mpr empty
          rw [List.length_drop]
          omega
        rw [foldlM_offsets step_pos body local_body empty,
          foldlM_offsets step_pos body local_body empty, body_eq, body_eq, List.drop_zero]
        cases found : piece data with
        | error message => rfl
        | ok text =>
            have text_clean := clean data text found
            have grown (front : Bytes) (front_clean : 0 ∉ front) :
                strFormat [.s front, .lit text] = front ++ text := by
              simp [strFormat, FormatItem.add_s_of_zero_notMem front_clean]
            rw [ok_map, ok_bind, ok_map, ok_bind, grown result result_clean,
              grown [] List.not_mem_nil,
              induction _ shorter _ _ (by simp [result_clean, text_clean]) rfl,
              induction _ shorter _ ([] ++ text) (by simpa using text_clean) rfl]
            cases (offsets step (data.drop step).length).foldlM (body (data.drop step)) [] with
            | error message => rfl
            | ok rest => simp

/-- The loop reads the word chunk by chunk. -/
private theorem foldlM_cons {data : Bytes} (nonempty : data ≠ []) :
    (offsets step data.length).foldlM (body data) [] = (do
      let front ← piece data
      (front ++ ·) <$>
        (offsets step (data.drop step).length).foldlM (body (data.drop step)) []) := by
  have local_body (word state : Bytes) (counter : Nat) :
      body word state (counter + step) = body (word.drop step) state counter := by
    rw [body_eq, body_eq, List.drop_drop, Nat.add_comm]
  rw [foldlM_offsets step_pos body local_body nonempty, body_eq, List.drop_zero]
  cases found : piece data with
  | error message => rfl
  | ok text =>
      rw [ok_map, ok_bind, ok_bind, show strFormat [.s [], .lit text] = text by
        simp [strFormat, FormatItem.add]]
      exact foldlM_append step_pos body piece body_eq clean _ _ (clean data text found)

end Accumulation

/-! ## Encoding group by group -/

/-- The byte at `k`, zero behind the end. -/
def byteAt (word : Bytes) (k : Nat) : Nat := (word[k]?.map UInt8.toNat).getD 0

theorem byteAt_lt (word : Bytes) (k : Nat) : byteAt word k < 256 := by
  rw [byteAt]
  cases word[k]? with
  | none => decide
  | some c => exact c.toNat_lt

/-- `string.byte( data:sub( i + k + 1 ) ) or 0` -/
theorem strByte_strSub (data : Bytes) (i k : Nat) :
    ((strByte (strSub data (i + (k + 1) : Nat) (-1)) 1).map UInt8.toNat).getD 0 =
      byteAt (data.drop i) k := by
  rw [← Nat.add_assoc, strSub_rest, show (1 : Int) = ((0 + 1 : Nat) : Int) from rfl, strByte_pos]
  simp [byteAt, List.getElem?_drop]

/-- The four characters for the first three bytes of a nonempty word. -/
def encodeGroup (word : Bytes) : Bytes :=
  [symbol (byteAt word 0 / 4),
    symbol (byteAt word 0 % 4 * 16 + byteAt word 1 / 16),
    if 1 < word.length then symbol (byteAt word 1 % 16 * 4 + byteAt word 2 / 64) else ch '=',
    if 2 < word.length then symbol (byteAt word 2 % 64) else ch '=']

/-- No character of the table is a NUL. -/
theorem symbol_ne_zero (n : Nat) : symbol n ≠ 0 := by
  by_cases inside : n < 64
  · revert n
    decide
  · rw [symbol, List.getD_eq_getElem?_getD,
      List.getElem?_eq_none (by simpa [base64chars] using inside)]
    decide

private theorem encodeStep_eq (data result : Bytes) (i : Nat) :
    encodeStep data result i = (fun text => strFormat [.s result, .lit text]) <$>
      (.ok (encodeGroup (data.drop i)) : Lua Bytes) := by
  have read := strByte_strSub data i
  have keep {c : Byte} (nonzero : c ≠ 0) : (FormatItem.s [c]).add = [c] :=
    FormatItem.add_s_of_zero_notMem (by simpa using nonzero.symm)
  have two : ((data.length : Int) - i > 1) = (1 < (data.drop i).length) := by
    rw [List.length_drop, eq_iff_iff]
    omega
  have three : ((data.length : Int) - i > 2) = (2 < (data.drop i).length) := by
    rw [List.length_drop, eq_iff_iff]
    omega
  have keep_if {p : Prop} [Decidable p] (n : Nat) :
      (FormatItem.s [if p then symbol n else ch '=']).add = [if p then symbol n else ch '='] := by
    apply keep
    split
    · exact symbol_ne_zero n
    · decide
  have indices : encodeIndices data i = [byteAt (data.drop i) 0 / 4,
      byteAt (data.drop i) 0 % 4 * 16 + byteAt (data.drop i) 1 / 16,
      byteAt (data.drop i) 1 % 16 * 4 + byteAt (data.drop i) 2 / 64,
      byteAt (data.drop i) 2 % 64] := by
    rw [encodeIndices]
    simp only [read 0, read 1, read 2]
  simp only [encodeStep, indices, ok_map, strFormat, List.flatMap_cons,
    List.flatMap_nil, keep (symbol_ne_zero _), keep_if, FormatItem.add_lit, encodeGroup,
    two, three]
  rfl

/-- Encoding goes by groups of three bytes. -/
theorem encode_of_ne_nil {data : Bytes} (nonempty : data ≠ []) :
    encode data = (encodeGroup data ++ ·) <$> encode (data.drop 3) :=
  foldlM_cons (by decide) encodeStep (fun word => .ok (encodeGroup word)) encodeStep_eq
    (fun word text same => by
      obtain rfl : encodeGroup word = text := by simpa using same
      simp only [encodeGroup, List.mem_cons, List.not_mem_nil, or_false, not_or]
      refine ⟨(symbol_ne_zero _).symm, (symbol_ne_zero _).symm, ?_, ?_⟩ <;> split <;>
        first | exact (symbol_ne_zero _).symm | decide) nonempty

/-! ## The format -/

/-- The character of a number below 64 in the URL-safe alphabet. -/
def urlSafe (n : Nat) : Byte :=
  if n < 26 then UInt8.ofNat (65 + n)
  else if n < 52 then UInt8.ofNat (97 + (n - 26))
  else if n < 62 then UInt8.ofNat (48 + (n - 52))
  else if n = 62 then ch '-' else ch '_'

/-- The bits of a text. -/
def bits (x : Bytes) : List Bool := x.flatMap fun c => Bits.word 8 c.toNat

/-- URL-safe base64: the bits in groups of six, with zeros behind the end, written in the alphabet
and padded to a multiple of four characters. -/
def urlSafeBase64 (x : Bytes) : Bytes :=
  let symbols := (Bits.regroup 6 (bits x)).map urlSafe
  symbols ++ List.replicate (4 * ((x.length + 2) / 3) - symbols.length) (ch '=')

theorem bits_cons (c : Byte) (x : Bytes) : bits (c :: x) = Bits.word 8 c.toNat ++ bits x := rfl

/-- The table holds the alphabet. -/
theorem symbol_eq_urlSafe {n : Nat} (inside : n < 64) : symbol n = urlSafe n := by
  revert n
  decide +kernel

/-- The number in the bits of two words. -/
private theorem value_words (i j m n : Nat) :
    Bits.value (Bits.word i m ++ Bits.word j n) = m % 2 ^ i * 2 ^ j + n % 2 ^ j := by
  rw [Bits.value_append, Bits.value_word, Bits.value_word, Bits.length_word]

/-- A byte is split between two groups. -/
private theorem bits_split (high low : Nat) (whole : high + low = 8) (c : Byte) (x : Bytes) :
    bits (c :: x) = Bits.word high (c.toNat / 2 ^ low) ++ (Bits.word low c.toNat ++ bits x) := by
  rw [bits_cons, ← whole, Bits.word_add, List.append_assoc]

section Regroup

variable (a b c : Byte)

private theorem regroup_first (rest : List Bool) :
    Bits.regroup 6 (Bits.word 6 (a.toNat / 2 ^ 2) ++ rest) =
      a.toNat / 4 :: Bits.regroup 6 rest := by
  have small := a.toNat_lt
  rw [Bits.regroup_append (by decide) (Bits.length_word _ _), Bits.value_word,
    Nat.mod_eq_of_lt (by omega)]
  rfl

private theorem regroup_second (rest : List Bool) :
    Bits.regroup 6 (Bits.word 2 a.toNat ++ (Bits.word 4 (b.toNat / 2 ^ 4) ++ rest)) =
      (a.toNat % 4 * 16 + b.toNat / 16) :: Bits.regroup 6 rest := by
  have small := b.toNat_lt
  rw [← List.append_assoc, Bits.regroup_append (by decide) (by simp), value_words,
    Nat.mod_eq_of_lt (by omega : b.toNat / 2 ^ 4 < 2 ^ 4)]
  rfl

private theorem regroup_third (rest : List Bool) :
    Bits.regroup 6 (Bits.word 4 b.toNat ++ (Bits.word 2 (c.toNat / 2 ^ 6) ++ rest)) =
      (b.toNat % 16 * 4 + c.toNat / 64) :: Bits.regroup 6 rest := by
  have small := c.toNat_lt
  rw [← List.append_assoc, Bits.regroup_append (by decide) (by simp), value_words,
    Nat.mod_eq_of_lt (by omega : c.toNat / 2 ^ 6 < 2 ^ 2)]
  rfl

theorem regroup_bits_one : Bits.regroup 6 (bits [a]) = [a.toNat / 4, a.toNat % 4 * 16] := by
  rw [bits_split 6 2 rfl, regroup_first, show bits [] = [] from rfl, List.append_nil,
    Bits.regroup_last (by simp) (by simp), Bits.value_word, Bits.length_word]
  rfl

theorem regroup_bits_two : Bits.regroup 6 (bits [a, b]) =
    [a.toNat / 4, a.toNat % 4 * 16 + b.toNat / 16, b.toNat % 16 * 4] := by
  rw [bits_split 6 2 rfl, regroup_first, bits_split 4 4 rfl, regroup_second,
    show bits [] = [] from rfl, List.append_nil, Bits.regroup_last (by simp) (by simp),
    Bits.value_word, Bits.length_word]
  rfl

theorem regroup_bits_three (x : Bytes) : Bits.regroup 6 (bits (a :: b :: c :: x)) =
    a.toNat / 4 :: (a.toNat % 4 * 16 + b.toNat / 16) :: (b.toNat % 16 * 4 + c.toNat / 64) ::
      c.toNat % 64 :: Bits.regroup 6 (bits x) := by
  rw [bits_split 6 2 rfl, regroup_first, bits_split 4 4 rfl, regroup_second, bits_split 2 6 rfl,
    regroup_third, Bits.regroup_append (by decide) (Bits.length_word _ _), Bits.value_word]
  rfl

end Regroup

/-- The format is written group by group. -/
theorem urlSafeBase64_of_ne_nil {x : Bytes} (nonempty : x ≠ []) :
    urlSafeBase64 x = encodeGroup x ++ urlSafeBase64 (x.drop 3) := by
  have nothing : urlSafeBase64 [] = [] := rfl
  rcases x with - | ⟨a, - | ⟨b, - | ⟨c, x⟩⟩⟩
  · exact absurd rfl nonempty
  · have small_a := a.toNat_lt
    have first := symbol_eq_urlSafe (n := a.toNat / 4) (by omega)
    have second := symbol_eq_urlSafe (n := a.toNat % 4 * 16) (by omega)
    rw [List.drop_of_length_le (by simp), nothing, urlSafeBase64, regroup_bits_one]
    simp [encodeGroup, byteAt, first, second]
  · have small_a := a.toNat_lt
    have small_b := b.toNat_lt
    have first := symbol_eq_urlSafe (n := a.toNat / 4) (by omega)
    have second := symbol_eq_urlSafe (n := a.toNat % 4 * 16 + b.toNat / 16) (by omega)
    have third := symbol_eq_urlSafe (n := b.toNat % 16 * 4) (by omega)
    rw [List.drop_of_length_le (by simp), nothing, urlSafeBase64, regroup_bits_two]
    simp [encodeGroup, byteAt, first, second, third]
  · have small_a := a.toNat_lt
    have small_b := b.toNat_lt
    have small_c := c.toNat_lt
    have first := symbol_eq_urlSafe (n := a.toNat / 4) (by omega)
    have second := symbol_eq_urlSafe (n := a.toNat % 4 * 16 + b.toNat / 16) (by omega)
    have third := symbol_eq_urlSafe (n := b.toNat % 16 * 4 + c.toNat / 64) (by omega)
    have fourth := symbol_eq_urlSafe (n := c.toNat % 64) (by omega)
    have width : 4 * (((a :: b :: c :: x).length + 2) / 3) -
        ((Bits.regroup 6 (bits (a :: b :: c :: x))).map urlSafe).length =
          4 * ((x.length + 2) / 3) - ((Bits.regroup 6 (bits x)).map urlSafe).length := by
      rw [regroup_bits_three]
      simp only [List.length_cons, List.length_map]
      omega
    rw [urlSafeBase64, width, regroup_bits_three]
    simp [encodeGroup, byteAt, urlSafeBase64, first, second, third, fourth]

/-- `encode` writes URL-safe base64, and every index at which it reads its table is in it. -/
theorem encode_eq_urlSafeBase64 (x : Bytes) :
    encode x = .ok (urlSafeBase64 x) ∧
      ∀ i ∈ offsets 3 x.length, ∀ n ∈ encodeIndices x i, n < base64chars.length := by
  constructor
  · induction length : x.length using Nat.strong_induction_on generalizing x with
    | _ size induction =>
        subst length
        by_cases empty : x = []
        · subst empty
          rfl
        · have shorter : (x.drop 3).length < x.length := by
            have nonempty := List.length_pos_iff.mpr empty
            rw [List.length_drop]
            omega
          rw [encode_of_ne_nil empty, induction _ shorter _ rfl, ok_map,
            urlSafeBase64_of_ne_nil empty]
  · intro i _ n member
    have read := strByte_strSub x i
    simp only [encodeIndices, read 0, read 1, read 2, List.mem_cons, List.not_mem_nil,
      or_false] at member
    have bound0 := byteAt_lt (x.drop i) 0
    have bound1 := byteAt_lt (x.drop i) 1
    have bound2 := byteAt_lt (x.drop i) 2
    have size : base64chars.length = 64 := rfl
    rcases member with rfl | rfl | rfl | rfl <;> omega

/-! ## Decoding group by group -/

/-- The value of the character at `k`: none behind the end and off the alphabet. -/
def sextet (word : Bytes) (k : Nat) : Option Nat := word[k]?.bind fun c => base64bytes.lookup c

/-- The bytes for the first four characters of a word. -/
def decodeGroup (word : Bytes) : Lua Bytes :=
  match sextet word 0, sextet word 1 with
  | some char1, some char2 =>
      .ok (cStr [UInt8.ofNat (char1 * 4 + char2 / 16)] ++
        (if (sextet word 2).isSome then
          cStr [UInt8.ofNat (char2 % 16 * 16 + (sextet word 2).getD 0 / 4)] else []) ++
        (if (sextet word 3).isSome then
          cStr [UInt8.ofNat ((sextet word 2).getD 0 % 4 * 64 + (sextet word 3).getD 0)] else []))
  | _, _ => .error (bytes "attempt to perform arithmetic on field '?' (a nil value)")

/-- The values of the table have six bits. -/
theorem lookup_lt {c : Byte} {n : Nat} (found : base64bytes.lookup c = some n) : n < 64 := by
  have bounded : ∀ entry ∈ base64bytes, entry.2 < 64 := by decide
  obtain ⟨front, back, whole, -⟩ := List.lookup_eq_some_iff.mp found
  exact bounded (c, n) (by simp [whole])

theorem sextet_lt {word : Bytes} {k n : Nat} (found : sextet word k = some n) : n < 64 := by
  obtain ⟨c, -, value⟩ := Option.bind_eq_some_iff.mp found
  exact lookup_lt value

private theorem decodeStep_eq (data result : Bytes) (i : Nat) :
    decodeStep data result i = (fun text => strFormat [.s result, .lit text]) <$>
      decodeGroup (data.drop i) := by
  have read (k : Nat) : base64byte (strSub data (i + (k + 1) : Nat) (i + (k + 1) : Nat)) =
      sextet (data.drop i) k := by
    rw [← Nat.add_assoc, strSub_single, sextet, List.getElem?_drop]
    cases data[i + k]? <;> rfl
  have single (c : Byte) : (FormatItem.s [c]).add = cStr [c] := rfl
  have single_if (p : Prop) [Decidable p] (c : Byte) :
      (FormatItem.s (if p then [c] else [])).add = if p then cStr [c] else [] := by
    split <;> rfl
  simp only [decodeStep, read 0, read 1, read 2, read 3, decodeGroup]
  cases found1 : sextet (data.drop i) 0 with
  | none => rfl
  | some char1 =>
      cases found2 : sextet (data.drop i) 1 with
      | none => rfl
      | some char2 =>
          have bound1 := sextet_lt found1
          have bound2 := sextet_lt found2
          have bound3 : (sextet (data.drop i) 2).getD 0 < 64 := by
            cases found3 : sextet (data.drop i) 2 with
            | none => decide
            | some char3 => exact sextet_lt found3
          have bound4 : (sextet (data.drop i) 3).getD 0 < 64 := by
            cases found4 : sextet (data.drop i) 3 with
            | none => decide
            | some char4 => exact sextet_lt found4
          simp only
          rw [strChar_of_lt (by omega), ok_bind, strChar_of_lt (by omega), ok_bind,
            strChar_of_lt (by omega), ok_bind, ok_map]
          simp [strFormat, single, single_if, pure, Except.pure]

/-- Decoding goes by groups of four characters. -/
theorem decode_of_ne_nil {data : Bytes} (nonempty : data ≠ []) :
    decode data = (do
      let front ← decodeGroup data
      (front ++ ·) <$> decode (data.drop 4)) :=
  foldlM_cons (by decide) decodeStep decodeGroup decodeStep_eq
    (fun word text found => by
      rw [decodeGroup] at found
      split at found
      · simp only [Except.ok.injEq] at found
        subst found
        simp only [List.mem_append, not_or]
        refine ⟨⟨zero_notMem_cStr _, ?_⟩, ?_⟩ <;> split <;>
          first | exact zero_notMem_cStr _ | exact List.not_mem_nil
      · simp at found) nonempty

/-! ## The round trip -/

/-- The two tables invert each other. -/
theorem lookup_symbol {n : Nat} (inside : n < 64) : base64bytes.lookup (symbol n) = some n := by
  revert n
  decide +kernel

/-- Padding is off the alphabet. -/
theorem lookup_padding : base64bytes.lookup (ch '=') = none := by
  decide

private theorem sextet_encodeGroup (word rest : Bytes) :
    sextet (encodeGroup word ++ rest) 0 = some (byteAt word 0 / 4) ∧
      sextet (encodeGroup word ++ rest) 1 = some (byteAt word 0 % 4 * 16 + byteAt word 1 / 16) ∧
      sextet (encodeGroup word ++ rest) 2 = (if 1 < word.length then
        some (byteAt word 1 % 16 * 4 + byteAt word 2 / 64) else none) ∧
      sextet (encodeGroup word ++ rest) 3 = if 2 < word.length then
        some (byteAt word 2 % 64) else none := by
  have bound0 := byteAt_lt word 0
  have bound1 := byteAt_lt word 1
  have bound2 := byteAt_lt word 2
  have optional (p : Prop) [Decidable p] {n : Nat} (inside : n < 64) :
      base64bytes.lookup (if p then symbol n else ch '=') = if p then some n else none := by
    split
    · exact lookup_symbol inside
    · exact lookup_padding
  exact ⟨lookup_symbol (by omega), lookup_symbol (by omega), optional _ (by omega),
    optional _ (by omega)⟩

/-- Decoding a group returns its bytes, without NULs. -/
theorem decodeGroup_encodeGroup {word : Bytes} (nonempty : word ≠ []) (rest : Bytes) :
    decodeGroup (encodeGroup word ++ rest) = .ok ((word.take 3).filter (· != 0)) := by
  obtain ⟨found0, found1, found2, found3⟩ := sextet_encodeGroup word rest
  have byte (n : Nat) (c : Byte) (same : n = c.toNat) : cStr [UInt8.ofNat n] =
      [c].filter (· != 0) := by
    rw [same, UInt8.ofNat_toNat]
    cases zero : c != 0 <;> simp [cStr, zero]
  simp only [decodeGroup, found0, found1, found2, found3]
  rcases word with - | ⟨a, - | ⟨b, - | ⟨c, word⟩⟩⟩
  · exact absurd rfl nonempty
  · have bound_a := a.toNat_lt
    have first := byte (a.toNat / 4 * 4 + (a.toNat % 4 * 16 + 0 / 16) / 16) a (by omega)
    simpa [byteAt] using first
  · have bound_a := a.toNat_lt
    have bound_b := b.toNat_lt
    have first := byte (a.toNat / 4 * 4 + (a.toNat % 4 * 16 + b.toNat / 16) / 16) a (by omega)
    have second := byte ((a.toNat % 4 * 16 + b.toNat / 16) % 16 * 16 +
      (b.toNat % 16 * 4 + 0 / 64) / 4) b (by omega)
    have both := congrArg₂ (· ++ ·) first second
    rw [← List.filter_append] at both
    simpa [byteAt] using both
  · have bound_a := a.toNat_lt
    have bound_b := b.toNat_lt
    have bound_c := c.toNat_lt
    have first := byte (a.toNat / 4 * 4 + (a.toNat % 4 * 16 + b.toNat / 16) / 16) a (by omega)
    have second := byte ((a.toNat % 4 * 16 + b.toNat / 16) % 16 * 16 +
      (b.toNat % 16 * 4 + c.toNat / 64) / 4) b (by omega)
    have third := byte ((b.toNat % 16 * 4 + c.toNat / 64) % 4 * 64 + c.toNat % 64) c (by omega)
    have all := congrArg₂ (· ++ ·) (congrArg₂ (· ++ ·) first second) third
    rw [← List.filter_append, ← List.filter_append] at all
    simpa [byteAt] using all

/-- Encoding and decoding removes the NULs of a text. -/
theorem decode_encode_eq (x : Bytes) : (encode x >>= decode) = .ok (x.filter (· != 0)) := by
  induction length : x.length using Nat.strong_induction_on generalizing x with
  | _ size induction =>
      subst length
      by_cases empty : x = []
      · subst empty
        rfl
      · have shorter : (x.drop 3).length < x.length := by
          have nonempty := List.length_pos_iff.mpr empty
          rw [List.length_drop]
          omega
        have remaining := induction _ shorter _ rfl
        rw [encode_of_ne_nil empty]
        cases encoded : encode (x.drop 3) with
        | error message => simp [encoded] at remaining
        | ok rest =>
            rw [encoded, ok_bind] at remaining
            have grouped : encodeGroup x ++ rest ≠ [] := by simp [encodeGroup]
            rw [ok_map, ok_bind, decode_of_ne_nil grouped, decodeGroup_encodeGroup empty, ok_bind,
              show (encodeGroup x ++ rest).drop 4 = rest from rfl, remaining, ok_map,
              ← List.filter_append, List.take_append_drop]

/-- The codec returns exactly the texts without a NUL. -/
theorem decode_encode_eq_self_iff_zero_notMem (x : Bytes) :
    (encode x >>= decode) = .ok x ↔ 0 ∉ x := by
  rw [decode_encode_eq, Except.ok.injEq, List.filter_eq_self]
  exact ⟨fun nonzero zero => absurd (nonzero 0 zero) (by decide), fun absent c member => by
    simpa using fun zero : c = 0 => absent (zero ▸ member)⟩

/-- A single NUL is lost. -/
theorem decode_encode_zero_ne : (encode [0] >>= decode) ≠ .ok [0] := by
  decide

/-! ## The accepted texts -/

/-- The characters `A-Z`, `a-z`, `0-9`, `-` and `_`. -/
def inAlphabet (c : Byte) : Bool := isalnum c || c == ch '-' || c == ch '_'

theorem lookup_isSome (c : Byte) : (base64bytes.lookup c).isSome = inAlphabet c := by
  revert c
  exact forall_byte (by decide +kernel)

/-- Well-formed base64: groups of four characters, then possibly a last group of two or three,
padded to four or not. -/
def WellFormed (s : Bytes) : Prop :=
  ∃ groups last padding, s = groups ++ last ++ padding ∧
    groups.length % 4 = 0 ∧ (last.length = 0 ∨ last.length = 2 ∨ last.length = 3) ∧
    (∀ c ∈ groups ++ last, inAlphabet c = true) ∧
    (padding = [] ∨ (last ≠ [] ∧ padding = List.replicate (4 - last.length) (ch '=')))

/-- The first two characters of every group are there and in the alphabet. -/
def LeadingPairs (s : Bytes) : Prop :=
  ∀ i, 4 * i < s.length → ∃ first second, s[4 * i]? = some first ∧ s[4 * i + 1]? = some second ∧
    inAlphabet first = true ∧ inAlphabet second = true

private theorem decodeGroup_isOk (word : Bytes) :
    (∃ text, decodeGroup word = .ok text) ↔ ∃ first second, word[0]? = some first ∧
      word[1]? = some second ∧ inAlphabet first = true ∧ inAlphabet second = true := by
  have known (k : Nat) : (sextet word k).isSome ↔ ∃ c, word[k]? = some c ∧ inAlphabet c = true := by
    rw [sextet]
    cases word[k]? with
    | none => simp
    | some c => simp [lookup_isSome]
  rw [decodeGroup]
  have first := known 0
  have second := known 1
  cases found0 : sextet word 0 with
  | none =>
      simp only [found0, Option.isSome_none, Bool.false_eq_true, false_iff] at first
      simp only [reduceCtorEq, exists_false, false_iff]
      rintro ⟨c, d, here, -, accept, -⟩
      exact first ⟨c, here, accept⟩
  | some char1 =>
      cases found1 : sextet word 1 with
      | none =>
          simp only [found1, Option.isSome_none, Bool.false_eq_true, false_iff] at second
          simp only [reduceCtorEq, exists_false, false_iff]
          rintro ⟨c, d, -, here, -, accept⟩
          exact second ⟨d, here, accept⟩
      | some char2 =>
          obtain ⟨c, here, accept⟩ := first.mp (by rw [found0]; rfl)
          obtain ⟨d, next, accept'⟩ := second.mp (by rw [found1]; rfl)
          exact iff_of_true ⟨_, rfl⟩ ⟨c, d, here, next, accept, accept'⟩

/-- `decode` returns exactly on the texts whose groups all start with two characters of the
alphabet. -/
theorem decode_isOk_iff (s : Bytes) : (∃ image, decode s = .ok image) ↔ LeadingPairs s := by
  induction length : s.length using Nat.strong_induction_on generalizing s with
  | _ size induction =>
      subst length
      by_cases empty : s = []
      · subst empty
        exact iff_of_true ⟨[], rfl⟩ fun i inside => absurd inside (by simp)
      · have positive := List.length_pos_iff.mpr empty
        have remaining := induction (s.drop 4).length (by rw [List.length_drop]; omega) _ rfl
        have shift (i : Nat) : (s.drop 4)[4 * i]? = s[4 * (i + 1)]? ∧
            (s.drop 4)[4 * i + 1]? = s[4 * (i + 1) + 1]? := by
          rw [List.getElem?_drop, List.getElem?_drop]
          exact ⟨congrArg (s[·]?) (by omega), congrArg (s[·]?) (by omega)⟩
        rw [decode_of_ne_nil empty]
        constructor
        · rintro ⟨image, decoded⟩ i inside
          obtain ⟨front, first, decoded⟩ := bind_eq_ok.mp decoded
          obtain ⟨rest, later, -⟩ := map_eq_ok.mp decoded
          cases i with
          | zero => exact (decodeGroup_isOk s).mp ⟨front, first⟩
          | succ i =>
              have pairs := remaining.mp ⟨rest, later⟩ i (by rw [List.length_drop]; omega)
              rwa [(shift i).1, (shift i).2] at pairs
        · intro pairs
          obtain ⟨front, first⟩ := (decodeGroup_isOk s).mpr (pairs 0 positive)
          obtain ⟨rest, later⟩ := remaining.mpr fun i inside => by
            rw [List.length_drop] at inside
            rw [(shift i).1, (shift i).2]
            exact pairs (i + 1) (by omega)
          exact ⟨front ++ rest, by rw [first, ok_bind, later, ok_map]⟩

/-- Every group of a well-formed text starts with two characters of the alphabet. -/
theorem WellFormed.leadingPairs {s : Bytes} (formed : WellFormed s) : LeadingPairs s := by
  obtain ⟨groups, last, padding, rfl, whole, width, alphabet, padded⟩ := formed
  intro i inside
  have padding_length : last.length + padding.length ≤ 4 ∧ (last = [] → padding = []) := by
    rcases padded with rfl | ⟨nonempty, rfl⟩
    · exact ⟨by rw [List.length_nil]; omega, fun _ => rfl⟩
    · exact ⟨by rw [List.length_replicate]; omega, fun empty => absurd empty nonempty⟩
  have pair_inside : 4 * i + 1 < (groups ++ last).length := by
    rw [List.length_append, List.length_append] at inside
    rw [List.length_append]
    rcases width with empty | width | width
    · have no_padding := padding_length.2 (List.length_eq_zero_iff.mp empty)
      rw [no_padding, List.length_nil] at inside
      omega
    · omega
    · omega
  have read (k : Nat) (below : k < (groups ++ last).length) :
      ∃ c, (groups ++ last ++ padding)[k]? = some c ∧ inAlphabet c = true :=
    ⟨(groups ++ last)[k], by rw [List.getElem?_append_left below, List.getElem?_eq_getElem below],
      alphabet _ (List.getElem_mem below)⟩
  obtain ⟨first, here, accept⟩ := read (4 * i) (by omega)
  obtain ⟨second, next, accept'⟩ := read (4 * i + 1) pair_inside
  exact ⟨first, second, here, next, accept, accept'⟩

/-- The text with padding for every foreign character at the third or fourth place of a group. -/
def padForeign (s : Bytes) : Bytes :=
  s.mapIdx fun i c => if 2 ≤ i % 4 ∧ inAlphabet c = false then ch '=' else c

theorem sextet_padForeign (s : Bytes) (k : Nat) : sextet (padForeign s) k = sextet s k := by
  rw [sextet, sextet, padForeign, List.getElem?_mapIdx]
  cases s[k]? with
  | none => rfl
  | some c =>
      rw [Option.map_some, Option.bind_some, Option.bind_some]
      split_ifs with foreign
      · have none_found : base64bytes.lookup c = none := by
          rw [← Option.not_isSome_iff_eq_none, lookup_isSome, foreign.2]
          simp
        rw [none_found, lookup_padding]
      · rfl

theorem drop_padForeign (s : Bytes) : (padForeign s).drop 4 = padForeign (s.drop 4) := by
  apply List.ext_getElem?
  intro k
  simp only [padForeign, List.getElem?_drop, List.getElem?_mapIdx, Nat.add_mod_left]

/-- `decode` takes foreign characters at these places for padding. -/
theorem decode_padForeign (s : Bytes) : decode (padForeign s) = decode s := by
  induction length : s.length using Nat.strong_induction_on generalizing s with
  | _ size induction =>
      subst length
      by_cases empty : s = []
      · subst empty
        rfl
      · have positive := List.length_pos_iff.mpr empty
        have nonempty : padForeign s ≠ [] := by simpa [padForeign] using empty
        have first : decodeGroup (padForeign s) = decodeGroup s := by
          simp only [decodeGroup, sextet_padForeign]
        rw [decode_of_ne_nil nonempty, decode_of_ne_nil empty, first, drop_padForeign,
          induction (s.drop 4).length (by rw [List.length_drop]; omega) _ rfl]

/-- `decode` returns exactly on the texts whose groups all start with two characters of the
alphabet, among them the well-formed ones; what stands at the third and fourth place of a group
never makes it fail, and foreign characters there are taken for padding. -/
theorem decode_accepts (s : Bytes) :
    ((∃ image, decode s = .ok image) ↔ LeadingPairs s) ∧
      (WellFormed s → ∃ image, decode s = .ok image) ∧
      decode (padForeign s) = decode s :=
  ⟨decode_isOk_iff s, fun formed => (decode_isOk_iff s).mpr formed.leadingPairs,
    decode_padForeign s⟩

/-- Foreign characters at the third and fourth place are taken for padding. -/
theorem decode_accepts_foreign :
    ¬((∃ image, decode (bytes "AA!!") = .ok image) ↔ WellFormed (bytes "AA!!")) := by
  intro same
  obtain ⟨groups, last, padding, whole, -, -, alphabet, padded⟩ := same.mp ⟨_, rfl⟩
  have foreign : ch '!' ∈ groups ++ last ++ padding := by
    rw [← whole]
    decide
  rcases List.mem_append.mp foreign with inside | inside
  · exact absurd (alphabet _ inside) (by decide)
  · rcases padded with rfl | ⟨-, rfl⟩
    · simp at inside
    · exact absurd (List.eq_of_mem_replicate inside) (by decide)

/-! ## Concatenation -/

/-- A word of whole groups is decoded independently of what follows it. -/
theorem decode_append_eq (s t : Bytes) (aligned : s.length % 4 = 0) :
    decode (s ++ t) = (do
      let front ← decode s
      (front ++ ·) <$> decode t) := by
  induction length : s.length using Nat.strong_induction_on generalizing s with
  | _ size induction =>
      subst length
      by_cases empty : s = []
      · subst empty
        have nothing : decode [] = .ok [] := rfl
        rw [List.nil_append, nothing, ok_bind]
        cases decode t <;> rfl
      · have whole : 4 ≤ s.length := by
          have positive := List.length_pos_iff.mpr empty
          omega
        have remaining := induction (s.drop 4).length (by rw [List.length_drop]; omega) (s.drop 4)
          (by rw [List.length_drop]; omega) rfl
        have group (k : Nat) (inside : k < 4) : sextet (s ++ t) k = sextet s k := by
          rw [sextet, sextet, List.getElem?_append_left (by omega)]
        have first : decodeGroup (s ++ t) = decodeGroup s := by
          rw [decodeGroup, decodeGroup, group 0 (by decide), group 1 (by decide),
            group 2 (by decide), group 3 (by decide)]
        have nonempty : s ++ t ≠ [] := List.append_ne_nil_of_left_ne_nil empty t
        rw [decode_of_ne_nil nonempty, decode_of_ne_nil empty, first,
          List.drop_append_of_le_length whole, remaining]
        cases decodeGroup s with
        | error message => rfl
        | ok front =>
            rw [ok_bind, ok_bind]
            cases decode (s.drop 4) with
            | error message => rfl
            | ok middle =>
                cases decode t with
                | error message => rfl
                | ok back => simp

/-- Decoding a concatenation behind whole groups fails when one of the parts does, and otherwise
concatenates what they decode to. -/
theorem decode_append (s t : Bytes) (aligned : s.length % 4 = 0) :
    ((∃ message, decode (s ++ t) = .error message) ↔
      (∃ message, decode s = .error message) ∨ ∃ message, decode t = .error message) ∧
    ∀ front back, decode s = .ok front → decode t = .ok back →
      decode (s ++ t) = .ok (front ++ back) := by
  rw [decode_append_eq s t aligned]
  cases decode s with
  | error message => simp
  | ok front => cases decode t <;> simp

/-- A malformed group behind a whole one. -/
theorem decode_append_malformed :
    ((∃ message, decode (bytes "TWFu" ++ bytes "?") = .error message) ↔
      (∃ message, decode (bytes "TWFu") = .error message) ∨
        ∃ message, decode (bytes "?") = .error message) ∧
    ∀ front back, decode (bytes "TWFu") = .ok front → decode (bytes "?") = .ok back →
      decode (bytes "TWFu" ++ bytes "?") = .ok (front ++ back) :=
  decode_append (bytes "TWFu") (bytes "?") rfl

end Base64

end LuaScript
