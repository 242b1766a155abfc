import Mathlib.Order.Monotone.Basic
import Mathlib.Algebra.Order.Field.Basic
import Mathlib.Tactic.NormNum
import Mathlib.Tactic.Linarith

/-
  IEEE-754 binary64 words, as `s_cos.S` reads them.

  The x86 `cos` handles its argument and the constants of `static_const_table` as raw 64-bit
  words: it classifies the argument by its top 16 bits, builds `copysign(1/2, x)` with a sign
  mask, and clears the sign with `pextrw`/`pinsrw`.  So a double is modelled here as a
  `BitVec 64`, and its meaning as a rational through the three fields of the format.

  * `scaled m` — the value of a sign-cleared word `m` in units of `2^-1074` (the least
    subnormal), a natural number; `toRat` divides by `2^1074` and applies the sign.
  * `scaled_strictMono` — the order of non-negative words is the order of their values.  This
    is the fact that turns the dispatcher's integer comparisons into the bounds
    `2^-252 ≤ |x| < 90112` (`Bionic.Libm.CosDispatch`).
  * `toRat_neg` — flipping the sign bit negates the value.

  Non-finite words (exponent field all ones) are given the value of the same formula; no
  result of this development reads it, since every statement about values first routes such
  words away.
-/

namespace Bionic.Libm.Binary64

/-- The word with only the sign bit set: the `-0.0` that `andpd` uses as a sign mask. -/
def signMask : BitVec 64 := 0x8000000000000000

/-- Bits 0..62 of a word: the word of its absolute value, read as a natural number. -/
def mag (x : BitVec 64) : Nat := x.toNat % 2 ^ 63

/-- The biased exponent field of a sign-cleared word, bits 52..62. -/
def bexp (m : Nat) : Nat := m / 2 ^ 52

/-- The fraction field, bits 0..51. -/
def frac (m : Nat) : Nat := m % 2 ^ 52

/-- The value of a sign-cleared word in units of `2^-1074`: a zero or subnormal (`bexp = 0`) is
    its fraction, a normal number its significand `2^52 + frac` scaled by `2^(bexp - 1)`. -/
def scaled (m : Nat) : Nat :=
  if bexp m = 0 then frac m else (2 ^ 52 + frac m) * 2 ^ (bexp m - 1)

/-- A word is finite when its exponent field is not all ones. -/
def isFinite (x : BitVec 64) : Bool := decide (bexp (mag x) < 2047)

/-- The rational a finite word denotes. -/
def toRat (x : BitVec 64) : ℚ :=
  (if x.msb then -(scaled (mag x) : ℚ) else (scaled (mag x) : ℚ)) / 2 ^ 1074

/-- Negation of a double: flip the sign bit. -/
def neg (x : BitVec 64) : BitVec 64 := x ^^^ signMask

/-- A rational is a binary64 value when it is `m · 2^e` with a 53-bit significand and an
    exponent in the format's range (subnormals included). -/
def Representable (q : ℚ) : Prop :=
  ∃ m e : ℤ, |m| < 2 ^ 53 ∧ -1074 ≤ e ∧ e ≤ 971 ∧ q = m * 2 ^ e

/-! ## The value of a sign-cleared word is strictly monotone in the word -/

theorem mag_lt (x : BitVec 64) : mag x < 2 ^ 63 := Nat.mod_lt _ (Nat.two_pow_pos 63)

theorem frac_lt (m : Nat) : frac m < 2 ^ 52 := Nat.mod_lt _ (Nat.two_pow_pos 52)

/-- A normal word with exponent field `e + 1` and fraction `f`. -/
theorem scaled_normal {e f : Nat} (hf : f < 2 ^ 52) :
    scaled ((e + 1) * 2 ^ 52 + f) = (2 ^ 52 + f) * 2 ^ e := by
  have h1 : ((e + 1) * 2 ^ 52 + f) / 2 ^ 52 = e + 1 := by omega
  have h2 : ((e + 1) * 2 ^ 52 + f) % 2 ^ 52 = f := by omega
  simp only [scaled, bexp, frac, h1, h2, Nat.succ_ne_zero, if_false, Nat.add_sub_cancel]

/-- The next word is a larger number: inside one binade the significand grows by one, and
    across a binade boundary `2^53 - 1` units of `2^(e-1)` become `2^52` units of `2^e`. -/
theorem scaled_lt_succ (m : Nat) : scaled m < scaled (m + 1) := by
  have hf := frac_lt m
  unfold scaled bexp frac at *
  by_cases hc : m % 2 ^ 52 + 1 < 2 ^ 52
  · -- same binade
    rw [show (m + 1) / 2 ^ 52 = m / 2 ^ 52 by omega,
      show (m + 1) % 2 ^ 52 = m % 2 ^ 52 + 1 by omega]
    split
    · omega
    · exact Nat.mul_lt_mul_of_pos_right (by omega) (Nat.two_pow_pos _)
  · -- the fraction wraps to zero and the exponent field steps up
    rw [show (m + 1) / 2 ^ 52 = m / 2 ^ 52 + 1 by omega, show (m + 1) % 2 ^ 52 = 0 by omega,
      if_neg (Nat.succ_ne_zero _), Nat.add_sub_cancel]
    split
    · rename_i he; rw [he]; omega
    · rename_i he
      obtain ⟨k, hk⟩ := Nat.exists_eq_succ_of_ne_zero he
      rw [hk, Nat.succ_sub_one, show 2 ^ k.succ = 2 * 2 ^ k from Nat.pow_succ', ← Nat.mul_assoc]
      exact Nat.mul_lt_mul_of_pos_right (by omega) (Nat.two_pow_pos _)

theorem scaled_strictMono : StrictMono scaled := strictMono_nat_of_lt_succ scaled_lt_succ

/-- The value of a positive normal word with exponent field `e + 1` and fraction `f`. -/
theorem toRat_normal {w : BitVec 64} {e f : Nat} (hw : w.toNat = (e + 1) * 2 ^ 52 + f)
    (he : e + 1 < 2048) (hf : f < 2 ^ 52) : toRat w = (2 ^ 52 + f) * 2 ^ e / 2 ^ 1074 := by
  have hlt : w.toNat < 2 ^ 63 := by omega
  have hmsb : w.msb = false := by rw [BitVec.msb_eq_decide]; simp; omega
  rw [toRat, hmsb, mag, Nat.mod_eq_of_lt hlt, hw, scaled_normal hf]
  push_cast; rfl

/-- `|toRat x|` only reads the magnitude bits. -/
theorem abs_toRat (x : BitVec 64) : |toRat x| = (scaled (mag x) : ℚ) / 2 ^ 1074 := by
  unfold toRat
  split <;> simp [abs_div]

/-- Comparing `|x|` with the value of a sign-cleared word `t` is comparing the words. -/
theorem le_abs_toRat_iff (x : BitVec 64) (t : Nat) :
    (scaled t : ℚ) / 2 ^ 1074 ≤ |toRat x| ↔ t ≤ mag x := by
  rw [abs_toRat, div_le_div_iff_of_pos_right (by positivity), Nat.cast_le,
    scaled_strictMono.le_iff_le]

theorem abs_toRat_lt_iff (x : BitVec 64) (t : Nat) :
    |toRat x| < (scaled t : ℚ) / 2 ^ 1074 ↔ mag x < t := by
  rw [← not_le, le_abs_toRat_iff, not_le]

/-! ## The sign bit -/

theorem toNat_signMask : signMask.toNat = 2 ^ 63 := rfl

theorem msb_signMask : signMask.msb = true := by decide

theorem getLsbD_signMask (i : Nat) : signMask.getLsbD i = decide (i = 63) := by
  rw [BitVec.getLsbD, toNat_signMask, Nat.testBit_two_pow]; simp [eq_comm]

/-- `andpd` with the sign mask keeps the sign bit and nothing else. -/
theorem signMask_and (x : BitVec 64) : signMask &&& x = if x.msb then signMask else 0 := by
  ext i
  rw [BitVec.getLsbD_and, getLsbD_signMask, BitVec.msb_eq_getLsbD_last]
  rcases Nat.lt_or_ge i 63 with h | h
  · split <;> simp [getLsbD_signMask, show (i : ℕ) ≠ 63 by omega]
  · have h63 : (i : ℕ) = 63 := by omega
    split <;> simp_all [getLsbD_signMask]

theorem mag_neg (x : BitVec 64) : mag (neg x) = mag x := by
  unfold mag neg
  rw [BitVec.toNat_xor, toNat_signMask]
  apply Nat.eq_of_testBit_eq
  intro i
  rw [Nat.testBit_mod_two_pow, Nat.testBit_mod_two_pow, Nat.testBit_xor]
  by_cases h : i < 63
  · rw [Nat.testBit_two_pow_of_ne (by omega), Bool.xor_false]
  · simp [h]

theorem msb_neg (x : BitVec 64) : (neg x).msb = !x.msb := by
  rw [neg, BitVec.msb_xor, msb_signMask, Bool.xor_true]

theorem toRat_neg (x : BitVec 64) : toRat (neg x) = -toRat x := by
  unfold toRat
  rw [msb_neg, mag_neg]
  cases x.msb <;> simp [neg_div]

/-- Clearing the sign bit gives the absolute value. -/
theorem toRat_clearSign (x : BitVec 64) : toRat (x &&& ~~~signMask) = |toRat x| := by
  have ht : (x &&& ~~~signMask).toNat = x.toNat % 2 ^ 63 := by
    rw [BitVec.toNat_and, show (~~~signMask).toNat = 2 ^ 63 - 1 from rfl,
      Nat.and_pow_two_sub_one_eq_mod]
  have hmsb : (x &&& ~~~signMask).msb = false := by
    rw [BitVec.msb_eq_decide, ht]; simp; omega
  rw [toRat, hmsb, show mag (x &&& ~~~signMask) = mag x by rw [mag, ht, Nat.mod_mod, mag],
    abs_toRat]
  rfl

end Bionic.Libm.Binary64
