import LuaScript.CType
import LuaScript.Lib.Fallible

/-!
# The string library

`string.sub`, `string.byte`, `string.char` and `string.format` as the bundled `lstrlib.c` computes
them.  Lengths and positions stay below `2 ^ 31`, so they are unbounded integers here.
-/

namespace LuaScript

open Fallible

/-- A computation of a Lua script.  An error carries its message, without the position that
`luaL_where` puts in front of it. -/
abbrev Lua := Except Bytes

/-- Relative string position: negative means back from end. -/
def posrelat (pos : Int) (len : Nat) : Int :=
  let pos := if pos < 0 then pos + len + 1 else pos
  if 0 ≤ pos then pos else 0

/-- `str_sub`; the optional last argument is `-1`. -/
def strSub (s : Bytes) (start stop : Int) : Bytes :=
  let start := max (posrelat start s.length) 1
  let stop := min (posrelat stop s.length) s.length
  if start ≤ stop then (s.drop (start - 1).toNat).take (stop - start + 1).toNat else []

/-- `str_byte` with one position: the byte there, or no value. -/
def strByte (s : Bytes) (i : Int) : Option Byte :=
  let posi := posrelat i s.length
  let pose := min (posrelat posi s.length) s.length
  let posi := if posi ≤ 0 then 1 else posi
  if posi > pose then none else s[(posi - 1).toNat]?

/-- `str_char` with one argument. -/
def strChar (c : Int) : Lua Bytes :=
  if 0 ≤ c ∧ c < 256 then .ok [UInt8.ofNat c.toNat]
  else .error (bytes "bad argument #1 to 'char' (invalid value)")

/-- The items that the scripts' format strings are made of, each with its argument. -/
inductive FormatItem where
  /-- Text that is copied. -/
  | lit (text : Bytes)
  /-- `%s` -/
  | s (arg : Bytes)
  /-- `%c` -/
  | c (arg : Byte)
  /-- `%02X` -/
  | X02 (arg : Nat)

/-- What `str_format` adds to its buffer for one item.  Whatever goes through `sprintf` and `buff`
is measured by `strlen`. -/
def FormatItem.add : FormatItem → Bytes
  | .lit text => text
  | .s arg => if 100 ≤ arg.length then arg else cStr arg
  | .c arg => cStr [arg]
  | .X02 arg => ((Nat.toDigits 16 arg).map fun digit => digit.toUpper.toUInt8).leftpad 2 48

/-- `str_format` -/
def strFormat (items : List FormatItem) : Bytes := items.flatMap FormatItem.add

/-- The loop `for i = 1, v:len() do local c = v:byte(i)` of the scripts. -/
def forBytes {σ : Type} (v : Bytes) (body : σ → Nat → Byte → Lua σ) (state : σ) : Lua σ :=
  (List.range' 1 v.length).foldlM (fun state (i : Nat) =>
    match strByte v (i : Nat) with
    | some c => body state i c
    | none => .error (bytes "attempt to perform arithmetic on local 'c' (a nil value)")) state

/-! ## Equations -/

@[simp]
theorem FormatItem.add_lit (text : Bytes) : (FormatItem.lit text).add = text := rfl

/-- `%s` is the identity on text without a NUL, on either side of the length limit. -/
theorem FormatItem.add_s_of_zero_notMem {arg : Bytes} (absent : 0 ∉ arg) :
    (FormatItem.s arg).add = arg := by
  simp only [FormatItem.add, cStr_of_zero_notMem absent, ite_self]

/-- The upper-case digit of a hexadecimal digit value. -/
def hexDigit (value : Nat) : Byte := if value < 10 then UInt8.ofNat (48 + value)
  else UInt8.ofNat (55 + value)

/-- `%02X` writes a byte as its two upper-case digits. -/
theorem FormatItem.add_X02 (c : Byte) :
    (FormatItem.X02 c.toNat).add = [hexDigit (c.toNat / 16), hexDigit (c.toNat % 16)] := by
  revert c
  exact forall_byte (by decide +kernel)

theorem strChar_of_lt {c : Nat} (small : c < 256) : strChar c = .ok [UInt8.ofNat c] := by
  rw [strChar, if_pos ⟨by omega, by omega⟩, Int.toNat_natCast]

/-- A position past the first byte of a cons looks into its tail. -/
theorem strByte_pos (s : Bytes) (i : Nat) : strByte s (i + 1 : Nat) = s[i]? := by
  have relative (len : Nat) : posrelat ((i + 1 : Nat) : Int) len = (i + 1 : Nat) := by
    simp only [posrelat]
    omega
  simp only [strByte, relative]
  rw [if_neg (by omega : ¬((i + 1 : Nat) : Int) ≤ 0)]
  by_cases inside : i < s.length
  · rw [if_neg (by omega), show (((i + 1 : Nat) : Int) - 1).toNat = i by omega]
  · rw [if_pos (by omega), List.getElem?_eq_none (by omega)]

/-- The loop over the positions visits the bytes with their positions. -/
theorem forBytes_eq {σ : Type} (v : Bytes) (body : σ → Nat → Byte → Lua σ) (state : σ) :
    forBytes v body state =
      (v.zipIdx 1).foldlM (fun state visit => body state visit.2 visit.1) state := by
  have from_suffix (front back : Bytes) (whole : v = front ++ back) (state : σ) :
      (List.range' (front.length + 1) back.length).foldlM (fun state i =>
        match strByte v (i : Nat) with
        | some c => body state i c
        | none => .error (bytes "attempt to perform arithmetic on local 'c' (a nil value)"))
        state =
      (back.zipIdx (front.length + 1)).foldlM (fun state visit => body state visit.2 visit.1)
        state := by
    induction back generalizing front state with
    | nil => rfl
    | cons c back induction =>
        have here : strByte v (front.length + 1 : Nat) = some c := by
          rw [strByte_pos, whole, List.getElem?_append_right le_rfl, Nat.sub_self]
          rfl
        rw [List.length_cons, List.range'_succ, List.zipIdx_cons, List.foldlM_cons,
          List.foldlM_cons]
        simp only [here]
        congr 1
        funext state
        simpa using induction (front ++ [c]) (by simp [whole]) state
  exact from_suffix [] v rfl state

/-- `s:sub(i, i)` is the one byte at `i`, or the empty string. -/
theorem strSub_single (s : Bytes) (i : Nat) :
    strSub s (i + 1 : Nat) (i + 1 : Nat) = s[i]?.toList := by
  have relative : posrelat ((i + 1 : Nat) : Int) s.length = (i + 1 : Nat) := by
    simp only [posrelat]
    omega
  simp only [strSub, relative]
  by_cases inside : i < s.length
  · rw [if_pos (by omega), List.getElem?_eq_getElem inside,
      show (max ((i + 1 : Nat) : Int) 1 - 1).toNat = i by omega,
      show (min ((i + 1 : Nat) : Int) s.length - max ((i + 1 : Nat) : Int) 1 + 1).toNat = 1 by omega,
      List.drop_eq_getElem_cons inside]
    rfl
  · rw [if_neg (by omega), List.getElem?_eq_none (by omega)]
    rfl

/-- `s:sub(i)` is the rest of the string from `i` on. -/
theorem strSub_rest (s : Bytes) (i : Nat) : strSub s (i + 1 : Nat) (-1) = s.drop i := by
  have start : posrelat ((i + 1 : Nat) : Int) s.length = (i + 1 : Nat) := by
    simp only [posrelat]
    omega
  have stop : posrelat (-1) s.length = s.length := by
    simp only [posrelat]
    omega
  simp only [strSub, start, stop]
  by_cases inside : i < s.length
  · rw [if_pos (by omega), show (max ((i + 1 : Nat) : Int) 1 - 1).toNat = i by omega]
    apply List.take_of_length_le
    rw [List.length_drop]
    omega
  · rw [if_neg (by omega), List.drop_eq_nil_of_le (by omega)]

end LuaScript
