import Mathlib.Data.List.TakeWhile
import Mathlib.Tactic.Common

/-!
# Bytes and the character classes of the C locale

Lua strings are byte words.  The classes are those of `<ctype.h>` in the C locale, the only locale
the interpreter ever runs in.
-/

namespace LuaScript

/-- A `char`, read through `uchar`. -/
abbrev Byte := UInt8

/-- A Lua string. -/
abbrev Bytes := List Byte

/-- The bytes of a literal of the source. -/
def bytes (literal : String) : Bytes := literal.toList.map Char.toUInt8

/-- The byte of a character literal of the source. -/
abbrev ch (literal : Char) : Byte := literal.toUInt8

/-- A natural number in decimal notation (`%d`, `tostring`). -/
def decimal (n : Nat) : Bytes := (Nat.toDigits 10 n).map Char.toUInt8

/-- A property of every byte can be checked on the 256 of them. -/
theorem forall_byte {P : Byte → Prop} (all : ∀ value < 256, P (UInt8.ofNat value)) (byte : Byte) :
    P byte := by
  simpa using all byte.toNat byte.toNat_lt

/-! ## Classes -/

def iscntrl (c : Byte) : Bool := c < 32 || c == 127

def isspace (c : Byte) : Bool := (9 ≤ c && c ≤ 13) || c == 32

def isdigit (c : Byte) : Bool := 48 ≤ c && c ≤ 57

def isupper (c : Byte) : Bool := 65 ≤ c && c ≤ 90

def islower (c : Byte) : Bool := 97 ≤ c && c ≤ 122

def isalpha (c : Byte) : Bool := isupper c || islower c

def isalnum (c : Byte) : Bool := isalpha c || isdigit c

def isxdigit (c : Byte) : Bool := isdigit c || (65 ≤ c && c ≤ 70) || (97 ≤ c && c ≤ 102)

def ispunct (c : Byte) : Bool := 33 ≤ c && c ≤ 126 && !isalnum c

def tolower (c : Byte) : Byte := if isupper c then c + 32 else c

def toupper (c : Byte) : Byte := if islower c then c - 32 else c

/-! ## C strings -/

/-- The bytes of a C string: everything before the first NUL (`std::string::c_str` read back,
`strlen`). -/
def cStr (s : Bytes) : Bytes := s.takeWhile (· != 0)

@[simp]
theorem cStr_nil : cStr [] = [] := rfl

theorem cStr_eq_self_iff (s : Bytes) : cStr s = s ↔ 0 ∉ s := by
  simp only [cStr, List.takeWhile_eq_self_iff, bne_iff_ne, ne_eq]
  exact ⟨fun nonzero zero => nonzero 0 zero rfl, fun absent byte member same =>
    absent (same ▸ member)⟩

theorem zero_notMem_cStr (s : Bytes) : 0 ∉ cStr s := by
  intro member
  simpa using List.mem_takeWhile_imp member

@[simp]
theorem cStr_cStr (s : Bytes) : cStr (cStr s) = cStr s :=
  (cStr_eq_self_iff _).mpr (zero_notMem_cStr s)

theorem cStr_of_zero_notMem {s : Bytes} (absent : 0 ∉ s) : cStr s = s :=
  (cStr_eq_self_iff s).mpr absent

end LuaScript
