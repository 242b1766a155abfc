import Bionic.Libm.Cos

/-
  The dispatcher of `cos`, read as bounds on the argument.

  The entry code compares 16-bit integers: `pextrw $3` takes the top 16 bits of `x`,
  `andl $32767` drops the sign, `subl $12336` shifts, and `ja`/`jg` compare with `4293`
  unsigned, then signed.  With `t = mag x / 2^48` (bits 48..62):

  * `classify_eq` — the branch taken is `tiny` for `t < 12336`, `main` for
    `12336 ≤ t ≤ 16629`, and past that `nan` or `huge` by the exponent field
    (`exponentTest_iff`).
  * `lowBound_value`, `highBound_value` — the words `0x3030 << 48` and `0x40F6 << 48` are the
    doubles `2^-252` and `90112`.  Since the value of a sign-cleared word is monotone in the
    word (`Binary64.scaled_strictMono`), the integer tests are the value tests
    `2^-252 ≤ |x| < 90112` of the header comment (`classify_eq_main_iff` and the others).
-/

namespace Bionic.Libm.Cos

open Binary64

/-! ## The integer tests -/

/-- A mask of the bits `a .. a + b - 1` extracts those bits. -/
theorem and_two_pow_sub_two_pow (n a b : Nat) :
    n &&& (2 ^ (a + b) - 2 ^ a) = n / 2 ^ a % 2 ^ b * 2 ^ a := by
  apply Nat.eq_of_testBit_eq; intro i
  rw [Nat.testBit_and, show 2 ^ (a + b) - 2 ^ a = 2 ^ a * (2 ^ b - 1) by
      rw [Nat.pow_add, Nat.mul_sub_one], Nat.testBit_mul_pow_two, Nat.mul_comm,
    Nat.testBit_mul_pow_two, Nat.testBit_mod_two_pow, ← Nat.shiftRight_eq_div_pow,
    Nat.testBit_shiftRight, Nat.testBit_two_pow_sub_one]
  by_cases h : a ≤ i
  · rw [Nat.add_sub_cancel' h]; cases n.testBit i <;> simp [h]
  · simp [h]

/-- The key the dispatcher compares, as a natural number: `t - 12336` modulo `2^32`. -/
theorem band_toNat (x : BitVec 64) :
    (band x).toNat = (mag x / 2 ^ 48 + 2 ^ 32 - 12336) % 2 ^ 32 := by
  have h : (((x >>> 48).setWidth 16).setWidth 32 &&& (32767 : BitVec 32)).toNat = mag x / 2 ^ 48 := by
    rw [BitVec.toNat_and, show (32767 : BitVec 32).toNat = 2 ^ 15 - 1 from rfl,
      Nat.and_pow_two_sub_one_eq_mod]
    simp only [BitVec.toNat_setWidth, BitVec.toNat_ushiftRight, Nat.shiftRight_eq_div_pow, mag]
    omega
  rw [band, BitVec.toNat_sub, h, show (12336 : BitVec 32).toNat = 12336 from rfl]
  have := mag_lt x
  omega

/-- `ja`: the key is below `12336` (it wraps around) or above `16629`. -/
theorem ult_band_iff (x : BitVec 64) :
    BitVec.ult 4293 (band x) = true ↔ mag x / 2 ^ 48 < 12336 ∨ 16629 < mag x / 2 ^ 48 := by
  have := mag_lt x
  rw [BitVec.ult, decide_eq_true_iff, band_toNat, show (4293 : BitVec 32).toNat = 4293 from rfl]
  omega

/-- `jg`: as a signed number the key is the true difference, so only `t > 16629` passes. -/
theorem slt_band_iff (x : BitVec 64) : BitVec.slt 4293 (band x) = true ↔ 16629 < mag x / 2 ^ 48 := by
  have := mag_lt x
  rw [BitVec.slt, decide_eq_true_iff, BitVec.toInt_eq_toNat_cond, BitVec.toInt_eq_toNat_cond,
    band_toNat, show (4293 : BitVec 32).toNat = 4293 from rfl]
  split <;> split <;> omega

/-- `andl $2146435072` on the high word keeps the exponent field. -/
theorem exponentTest_iff (x : BitVec 64) :
    (x >>> 32).setWidth 32 &&& 2146435072 = 2146435072 ↔ bexp (mag x) = 2047 := by
  rw [BitVec.toNat_eq, BitVec.toNat_and, BitVec.toNat_setWidth, BitVec.toNat_ushiftRight,
    Nat.shiftRight_eq_div_pow, show (2146435072 : BitVec 32).toNat = 2 ^ (20 + 11) - 2 ^ 20 from rfl,
    and_two_pow_sub_two_pow, bexp, mag]
  omega

/-- The dispatcher in terms of the top bits of the magnitude. -/
theorem classify_eq (x : BitVec 64) :
    classify x = if mag x / 2 ^ 48 < 12336 then .tiny else if mag x / 2 ^ 48 ≤ 16629 then .main
      else if bexp (mag x) = 2047 then .nan else .huge := by
  rw [classify]
  by_cases h1 : mag x / 2 ^ 48 < 12336
  · rw [if_pos ((ult_band_iff x).2 (.inl h1)), if_neg (by rw [slt_band_iff]; omega), if_pos h1]
  by_cases h2 : mag x / 2 ^ 48 ≤ 16629
  · rw [if_neg (by rw [ult_band_iff]; omega), if_neg h1, if_pos h2]
  rw [if_pos ((ult_band_iff x).2 (.inr (by omega))), if_pos ((slt_band_iff x).2 (by omega)),
    if_neg h1, if_neg h2]
  simp only [exponentTest_iff]

/-- Negating the argument does not change the branch: the key has no sign. -/
theorem classify_neg (x : BitVec 64) : classify (neg x) = classify x := by
  rw [classify_eq, classify_eq, mag_neg]

/-! ## The thresholds as values -/

theorem lowBound_value : (scaled (12336 * 2 ^ 48) : ℚ) / 2 ^ 1074 = 2 ^ (-252 : ℤ) := by
  rw [show 12336 * 2 ^ 48 = (770 + 1) * 2 ^ 52 + 0 by norm_num, scaled_normal (by norm_num)]
  norm_num

theorem highBound_value : (scaled (16630 * 2 ^ 48) : ℚ) / 2 ^ 1074 = 90112 := by
  rw [show 16630 * 2 ^ 48 = (1038 + 1) * 2 ^ 52 + 6 * 2 ^ 48 by norm_num, scaled_normal (by norm_num)]
  norm_num

theorem lowBound_le_iff (x : BitVec 64) :
    (2 : ℚ) ^ (-252 : ℤ) ≤ |toRat x| ↔ 12336 ≤ mag x / 2 ^ 48 := by
  rw [← lowBound_value, le_abs_toRat_iff]; omega

theorem lt_highBound_iff (x : BitVec 64) : |toRat x| < 90112 ↔ mag x / 2 ^ 48 ≤ 16629 := by
  rw [← highBound_value, abs_toRat_lt_iff]; omega

theorem classify_eq_main_iff (x : BitVec 64) :
    classify x = .main ↔ (2 : ℚ) ^ (-252 : ℤ) ≤ |toRat x| ∧ |toRat x| < 90112 := by
  rw [classify_eq, lowBound_le_iff, lt_highBound_iff]
  split_ifs <;> simp <;> omega

theorem classify_eq_tiny_iff (x : BitVec 64) :
    classify x = .tiny ↔ |toRat x| < (2 : ℚ) ^ (-252 : ℤ) := by
  have h : |toRat x| < (2 : ℚ) ^ (-252 : ℤ) ↔ mag x / 2 ^ 48 < 12336 := by
    rw [← not_le, lowBound_le_iff, not_le]
  rw [classify_eq, h]
  split_ifs <;> simp <;> omega

theorem classify_eq_nan_iff (x : BitVec 64) : classify x = .nan ↔ bexp (mag x) = 2047 := by
  have : bexp (mag x) = 2047 → 16629 < mag x / 2 ^ 48 := by rw [bexp]; omega
  rw [classify_eq]
  split_ifs <;> simp <;> omega

theorem classify_eq_huge_iff (x : BitVec 64) :
    classify x = .huge ↔ isFinite x = true ∧ 90112 ≤ |toRat x| := by
  have : bexp (mag x) ≤ 2047 := by have := mag_lt x; rw [bexp]; omega
  have h : 90112 ≤ |toRat x| ↔ 16629 < mag x / 2 ^ 48 := by
    rw [← not_lt, lt_highBound_iff, not_le]
  rw [classify_eq, isFinite, decide_eq_true_iff, h]
  split_ifs <;> simp <;> omega

end Bionic.Libm.Cos
