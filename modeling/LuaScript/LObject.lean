import Mathlib.Data.Nat.Bits
import Mathlib.Data.Nat.Size
import Mathlib.Tactic.Common
import Mathlib.Tactic.Ring

/-!
# Arithmetic of objects

The functions of `lobject.c` and the macros of `lobject.h` that tables and table constructors count
with: logarithms by a table of bytes, and sizes rounded to a "floating point byte".
-/

namespace LuaScript

/-! ## Logarithms -/

/-- The table `log_2` of `luaO_log2`. -/
def log2Table : List Nat :=
  [0, 1] ++ List.replicate 2 2 ++ List.replicate 4 3 ++ List.replicate 8 4 ++
    List.replicate 16 5 ++ List.replicate 32 6 ++ List.replicate 64 7 ++ List.replicate 128 8

/-- The loop of `luaO_log2`, over at most the given number of rounds. -/
def luaOLog2From : Nat → Nat → Int → Int
  | 0, _, l => l
  | rounds + 1, x, l =>
      if 256 ≤ x then luaOLog2From rounds (x >>> 8) (l + 8) else l + log2Table.getD x 0

/-- `luaO_log2` -/
def luaOLog2 (x : Nat) : Int := luaOLog2From (x + 1) x (-1)

/-- `ceillog2`, of a positive number -/
def ceillog2 (x : Nat) : Nat := (luaOLog2 (x - 1) + 1).toNat

private theorem log2Table_eq_size : ∀ x < 256, log2Table.getD x 0 = x.size := by
  decide +kernel

theorem luaOLog2From_eq (rounds x : Nat) (l : Int) (enough : x < rounds) :
    luaOLog2From rounds x l = l + x.size := by
  induction rounds generalizing x l with
  | zero => omega
  | succ rounds induction =>
      rw [luaOLog2From]
      split_ifs with large
      · have shifted : x >>> 8 = x / 256 := Nat.shiftRight_eq_div_pow x 8
        have smaller : x >>> 8 < rounds := by omega
        have size_eq : x.size = (x >>> 8).size + 8 := by
          refine eq_of_forall_ge_iff fun n => ?_
          rw [Nat.size_le]
          rcases Nat.lt_or_ge n 8 with below | above
          · have bound : 2 ^ n ≤ 2 ^ 8 := Nat.pow_le_pow_right (by omega) below.le
            constructor <;> intro <;> omega
          · obtain ⟨k, rfl⟩ := Nat.exists_eq_add_of_le' above
            rw [Nat.add_le_add_iff_right, Nat.size_le, shifted, Nat.pow_add,
              Nat.div_lt_iff_lt_mul (by norm_num)]
        rw [induction _ _ smaller, size_eq]
        push_cast
        omega
      · rw [log2Table_eq_size x (by omega)]

/-- `luaO_log2` is one less than the number of binary digits. -/
theorem luaOLog2_eq (x : Nat) : luaOLog2 x = x.size - 1 := by
  rw [luaOLog2, luaOLog2From_eq _ _ _ x.lt_succ_self]
  omega

/-- `ceillog2` is the least exponent whose power is not smaller. -/
theorem ceillog2_le_iff {x n : Nat} (positive : 0 < x) : ceillog2 x ≤ n ↔ x ≤ 2 ^ n := by
  have digits : ceillog2 x = (x - 1).size := by
    rw [ceillog2, luaOLog2_eq]
    omega
  rw [digits, Nat.size_le]
  omega

theorem le_two_pow_ceillog2 {x : Nat} (positive : 0 < x) : x ≤ 2 ^ ceillog2 x :=
  (ceillog2_le_iff positive).mp le_rfl

/-! ## Floating point bytes -/

/-- The loop of `luaO_int2fb`, over at most the given number of rounds. -/
def luaOInt2fbFrom : Nat → Nat → Nat → Nat
  | 0, x, _ => x
  | rounds + 1, x, e =>
      if 16 ≤ x then luaOInt2fbFrom rounds (((x + 1) % 2 ^ 32) >>> 1) (e + 1)
      else if x < 8 then x
      else ((e + 1) <<< 3) ||| (x - 8)

/-- `luaO_int2fb` -/
def luaOInt2fb (x : Nat) : Nat := luaOInt2fbFrom (x + 1) x 0

/-- `luaO_fb2int` -/
def luaOFb2int (x : Nat) : Nat :=
  let e := (x >>> 3) &&& 31
  if e = 0 then x else ((x &&& 7) + 8) <<< (e - 1)

/-- The number that a floating point byte stands for, whatever its length. -/
private def fbValue (b : Nat) : Nat := if b < 8 then b else (b % 8 + 8) * 2 ^ (b / 8 - 1)

private theorem fbValue_below {b : Nat} (below : b < 16) : fbValue b = b := by
  rw [fbValue]
  split_ifs
  · rfl
  · have exponent : b / 8 - 1 = 0 := by omega
    rw [exponent]
    omega

private theorem fbValue_add_eight {b : Nat} (above : 8 ≤ b) : fbValue (b + 8) = 2 * fbValue b := by
  have exponent : (b + 8) / 8 - 1 = b / 8 - 1 + 1 := by omega
  rw [fbValue, if_neg (by omega), fbValue, if_neg (by omega), Nat.add_mod_right, exponent,
    Nat.pow_succ]
  ring

private theorem sixteen_le_fbValue {b : Nat} (above : 16 ≤ b) : 16 ≤ fbValue b := by
  induction b using Nat.strong_induction_on with
  | _ b induction =>
      obtain ⟨c, rfl⟩ := Nat.exists_eq_add_of_le' (show 8 ≤ b by omega)
      rw [fbValue_add_eight (by omega)]
      rcases Nat.lt_or_ge c 16 with small | large
      · rw [fbValue_below small]
        omega
      · have := induction c (by omega) large
        omega

private theorem luaOFb2int_eq {b : Nat} (byte : b < 256) : luaOFb2int b = fbValue b := by
  have exponent : b >>> 3 &&& 31 = b / 8 := by
    rw [Nat.shiftRight_eq_div_pow, show 31 = 2 ^ 5 - 1 from rfl, Nat.and_two_pow_sub_one_eq_mod]
    omega
  have digits : b &&& 7 = b % 8 := Nat.and_two_pow_sub_one_eq_mod b 3
  rw [luaOFb2int, fbValue]
  simp only [exponent, digits]
  split_ifs
  · rfl
  · omega
  · omega
  · rw [Nat.shiftLeft_eq]

/-- The loop compares with a byte as the number it has left compares with the rest of the byte. -/
private theorem luaOInt2fbFrom_le_iff (rounds x e b : Nat) (enough : x < rounds)
    (word : x + 1 < 2 ^ 32) (above : 8 ≤ x) :
    luaOInt2fbFrom rounds x e ≤ 8 * e + b ↔ x ≤ fbValue b := by
  induction rounds generalizing x e b with
  | zero => omega
  | succ rounds induction =>
      rw [luaOInt2fbFrom]
      split_ifs with large small
      · have half : ((x + 1) % 2 ^ 32) >>> 1 = (x + 1) / 2 := by
          rw [Nat.mod_eq_of_lt word, Nat.shiftRight_eq_div_pow]
        have step (c : Nat) := induction ((x + 1) / 2) (e + 1) c (by omega) (by omega) (by omega)
        rw [half]
        rcases Nat.lt_or_ge b 8 with below | behind
        · have least := step 0
          rw [fbValue_below (by omega)] at least ⊢
          omega
        · obtain ⟨c, rfl⟩ := Nat.exists_eq_add_of_le' behind
          have shifted : 8 * e + (c + 8) = 8 * (e + 1) + c := by omega
          rw [shifted, step c]
          rcases Nat.lt_or_ge c 8 with low | high
          · rw [fbValue_below (by omega), fbValue_below (by omega)]
            omega
          · rw [fbValue_add_eight high]
            omega
      · omega
      · have apart : ((e + 1) <<< 3) ||| (x - 8) = 8 * (e + 1) + (x - 8) := by
          rw [Nat.shiftLeft_eq, Nat.mul_comm, show 8 = 2 ^ 3 from rfl,
            Nat.two_pow_add_eq_or_of_lt (by omega)]
        rw [apart]
        rcases Nat.lt_or_ge b 16 with low | high
        · rw [fbValue_below low]
          omega
        · have := sixteen_le_fbValue high
          omega

/-- A floating point byte is the least one that stands for a number not smaller. -/
theorem luaOInt2fb_le_iff {x b : Nat} (word : x + 1 < 2 ^ 32) (byte : b < 232) :
    luaOInt2fb x ≤ b ↔ x ≤ luaOFb2int b := by
  rw [luaOFb2int_eq (by omega)]
  rcases Nat.lt_or_ge x 8 with small | large
  · have same : luaOInt2fb x = x := by
      rw [luaOInt2fb, luaOInt2fbFrom, if_neg (by omega), if_pos small]
    rw [same]
    rcases Nat.lt_or_ge b 16 with low | high
    · rw [fbValue_below low]
    · have := sixteen_le_fbValue high
      omega
  · have compared := luaOInt2fbFrom_le_iff (x + 1) x 0 b x.lt_succ_self word large
    rwa [Nat.mul_zero, Nat.zero_add] at compared

/-- A thousand is rounded up to 1024. -/
theorem luaOInt2fb_thousand : luaOInt2fb 1000 ≤ 64 ↔ 1000 ≤ luaOFb2int 64 :=
  luaOInt2fb_le_iff (by omega) (by omega)

end LuaScript
