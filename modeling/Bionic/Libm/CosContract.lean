import Bionic.Libm.CosReduction
import Mathlib.Data.Real.Pi.Bounds

/-
  What `cos` returns on tiny arguments, and the bound the polynomial relies on.

  * `cos_tiny` — below `2^-252` the result is `1 - |x|`, rounded once.
  * `abs_reducedAngle_le` — the reduced argument `r` that the main path hands to the
    polynomial and the table reconstruction stays within `π/64 + 2^-32`, under any rounding
    with relative error at most `2^-53`.  Three facts add up to it:
    `abs_sub_reductionMultiple_le` (`N` is within `1/2 + 2^-32` of `K x`, `K` the stored
    `32/π`: truncating `q` with half the sign of `q` added rounds to nearest,
    `abs_truncate_sub_le`); the stored `1/K` and `P_1 + P_2` agree to `2^-57`, so without
    rounding `|x - N (P_1 + P_2)| ≤ 1/(2K) + 2^-34`; and the four roundings of the reduction
    add less than `2^-36` (`abs_reduce_r_le`).  Last, `1/(2K)` is below `π/64`
    (`Real.pi_gt_d20`).
-/

namespace Bionic.Libm.Cos

open Binary64 CosTable Sse

/-! ## Tiny arguments -/

/-- The double at 2192 is `1.0`. -/
theorem toRat_double_2192 : toRat (double 2192) = 1 := by
  rw [toRat_normal (show (double 2192).toNat = (1022 + 1) * 2 ^ 52 + 0 by decide)
    (by norm_num) (by norm_num)]
  norm_num

/-- Below `2^-252` `cos` returns `1 - |x|`, rounded once. -/
theorem cos_tiny (rnd : ℚ → ℚ) (sincosHuge : BitVec 64 → ℚ) {x : BitVec 64}
    (hx : |toRat x| < 2 ^ (-252 : ℤ)) : cos rnd sincosHuge x = some (rnd (1 - |toRat x|)) := by
  rw [cos_of_tiny sincosHuge ((classify_eq_tiny_iff x).2 hx), toRat_double_2192]

/-- The least negative subnormal, `0x8000000000000001`: the branch clears its sign bit. -/
theorem cos_tiny_at_neg_subnormal :
    |toRat 0x8000000000000001#64| < (2 : ℚ) ^ (-252 : ℤ) ∧
      cos id (fun _ => 0) 0x8000000000000001#64 = some (id (1 - |toRat 0x8000000000000001#64|)) :=
  have hx : |toRat 0x8000000000000001#64| < (2 : ℚ) ^ (-252 : ℤ) :=
    (classify_eq_tiny_iff _).1 (by decide)
  ⟨hx, cos_tiny id (fun _ => 0) hx⟩

/-! ## The reduced argument -/

theorem RelErr.nonneg {rnd : ℚ → ℚ} (hr : RelErr rnd) {q : ℚ} (hq : 0 ≤ q) : 0 ≤ rnd q := by
  have h := abs_sub_le_iff.1 (hr q)
  rw [abs_of_nonneg hq] at h
  linarith [div_le_self hq (show (1 : ℚ) ≤ 2 ^ 53 by norm_num)]

theorem RelErr.nonpos {rnd : ℚ → ℚ} (hr : RelErr rnd) {q : ℚ} (hq : q ≤ 0) : rnd q ≤ 0 := by
  have h := abs_sub_le_iff.1 (hr q)
  rw [abs_of_nonpos hq] at h
  linarith [div_le_self (neg_nonneg.2 hq) (show (1 : ℚ) ≤ 2 ^ 53 by norm_num)]

theorem toRat_nonneg {x : BitVec 64} (h : x.msb = false) : 0 ≤ toRat x := by
  rw [toRat, if_neg (by simp [h])]; positivity

theorem toRat_nonpos {x : BitVec 64} (h : x.msb = true) : toRat x ≤ 0 := by
  rw [toRat, if_pos h, neg_div]; exact neg_nonpos.2 (by positivity)

/-- Truncating `q = y + h`, where the half `h` has the sign of `q`, gives an integer within
    `1/2` of `y`. -/
theorem abs_truncate_sub_le {q h : ℚ} (hq : h = 1 / 2 ∧ 0 ≤ q ∨ h = -(1 / 2) ∧ q ≤ 0) :
    |(truncate q : ℚ) - (q - h)| ≤ 1 / 2 := by
  rcases hq with ⟨rfl, hq⟩ | ⟨rfl, hq⟩
  · rw [truncate, if_pos hq, abs_le]
    constructor <;> linarith [Int.floor_le q, Int.lt_floor_add_one q]
  · rcases hq.lt_or_eq with hq | rfl
    · rw [truncate, if_neg (not_le.2 hq), abs_le]
      constructor <;> linarith [Int.le_ceil q, Int.ceil_lt_add_one q]
    · rw [abs_le]; norm_num [truncate]

/-- The four roundings of the reduction move `r` by less than `2^-36` from `x - N (P_1 + P_2)`,
    when that is small and the products `N P_1`, `N P_2` are in the main path's range. -/
theorem abs_reduce_r_sub_le {rnd : ℚ → ℚ} (hr : RelErr rnd) (k : Consts) {X N : ℚ}
    (hE : |X - N * (k.p1 + k.p2)| ≤ 1 / 16) (hP1 : |k.p1 * N| ≤ 90113)
    (hP2 : |k.p2 * N| ≤ 1 / 2 ^ 10) :
    |(reduce rnd k X N).r - (X - N * (k.p1 + k.p2))| ≤ 1 / 2 ^ 36 := by
  simp only [reduce]
  obtain ⟨e1, e1'⟩ := abs_le.1 ((hr _).trans (div_le_div_of_nonneg_right hP1 (by norm_num)))
  obtain ⟨e2, e2'⟩ := abs_le.1 ((hr _).trans (div_le_div_of_nonneg_right hP2 (by norm_num)))
  obtain ⟨hE1, hE2⟩ := abs_le.1 hE
  obtain ⟨p1, p2⟩ := abs_le.1 hP2
  have hX1 : |X - rnd (k.p1 * N)| ≤ 1 := by
    rw [abs_le]; constructor <;> linarith only [e1, e1', hE1, hE2, p1, p2]
  obtain ⟨e3, e3'⟩ := abs_le.1 ((hr _).trans (div_le_div_of_nonneg_right hX1 (by norm_num)))
  obtain ⟨x1, x2⟩ := abs_le.1 hX1
  have hX2 : |rnd (X - rnd (k.p1 * N)) - rnd (k.p2 * N)| ≤ 2 := by
    rw [abs_le]; constructor <;> linarith only [e2, e2', e3, e3', x1, x2, p1, p2]
  obtain ⟨e4, e4'⟩ := abs_le.1 ((hr _).trans (div_le_div_of_nonneg_right hX2 (by norm_num)))
  rw [abs_le]
  constructor <;> linarith only [e1, e1', e2, e2', e3, e3', e4, e4']

section

variable {rnd : ℚ → ℚ} (hr : RelErr rnd) {x : BitVec 64} (hx : |toRat x| < 90112)
include hr hx

/-- `N` is the integer nearest to `K x` up to the two roundings before the truncation. -/
theorem abs_sub_reductionMultiple_le :
    |toRat (double 2160) * toRat x - (reductionMultiple rnd double x).toInt| ≤
      1 / 2 + 1 / 2 ^ 32 := by
  have hs := abs_reductionArg_lt hr hx
  rw [reductionMultiple, toInt_cvttsd2si (hs.trans (by norm_num))]
  have hK : (0 : ℚ) < toRat (double 2160) := by rw [toRat_double_2160]; norm_num
  have hy : |toRat (double 2160) * toRat x| ≤ 917875 := by
    rw [abs_mul, abs_of_pos hK]
    calc _ ≤ toRat (double 2160) * 90112 := mul_le_mul_of_nonneg_left hx.le hK.le
      _ ≤ 917875 := by rw [toRat_double_2160]; norm_num
  have hsign : toRat (double 2240 ||| double 2224 &&& x) = 1 / 2 ∧
        0 ≤ rnd (rnd (toRat (double 2160) * toRat x) + toRat (double 2240 ||| double 2224 &&& x)) ∨
      toRat (double 2240 ||| double 2224 &&& x) = -(1 / 2) ∧
        rnd (rnd (toRat (double 2160) * toRat x) + toRat (double 2240 ||| double 2224 &&& x)) ≤ 0 := by
    rw [copysignHalf]
    cases hm : x.msb
    · rw [if_neg (by decide)]
      exact .inl ⟨rfl, hr.nonneg (by
        linarith [hr.nonneg (mul_nonneg hK.le (toRat_nonneg hm))])⟩
    · rw [if_pos rfl]
      exact .inr ⟨rfl, hr.nonpos (by
        linarith [hr.nonpos (mul_nonpos_of_nonneg_of_nonpos hK.le (toRat_nonpos hm))])⟩
  have h1 := abs_le.1 (hr (toRat (double 2160) * toRat x))
  have h2 := abs_le.1 (hr (rnd (toRat (double 2160) * toRat x) +
    toRat (double 2240 ||| double 2224 &&& x)))
  have h3 := abs_le.1 (abs_truncate_sub_le hsign)
  have hb : |rnd (toRat (double 2160) * toRat x) + toRat (double 2240 ||| double 2224 &&& x)| ≤
      917876 := by
    have := hr.abs_le (toRat (double 2160) * toRat x)
    refine (abs_add _ _).trans ?_
    rw [abs_copysignHalf]
    linarith
  rw [abs_le]
  constructor <;> linarith

/-- The reduced argument the main path passes on is within `1/(2K) + 2^-32`. -/
theorem abs_reduce_r_le :
    |(reduce rnd (Consts.ofMem double) (toRat x) (reductionMultiple rnd double x).toInt).r| ≤
      1 / (2 * toRat (double 2160)) + 1 / 2 ^ 32 := by
  have hB := abs_sub_reductionMultiple_le hr hx
  have hN : |((reductionMultiple rnd double x).toInt : ℚ)| ≤ 917874 := by
    exact_mod_cast abs_reductionMultiple_le hr hx
  generalize ((reductionMultiple rnd double x).toInt : ℚ) = N at hB hN
  generalize toRat x = X at hB hx
  -- the reduction without rounding: `X - N (P_1 + P_2)`
  have hE : |X - N * ((Consts.ofMem double).p1 + (Consts.ofMem double).p2)| ≤
      1 / (2 * toRat (double 2160)) + 1 / 2 ^ 34 := by
    simp only [Consts.ofMem]
    rw [toRat_double_2160] at hB ⊢
    rw [toRat_double_2128, toRat_double_2112]
    have hid : X - N * (1686629713 / 2 ^ 34 + 2242054355 / 2 ^ 69) =
        (5734161139222659 / 2 ^ 49 * X - N) / (5734161139222659 / 2 ^ 49) +
          N * (2 ^ 49 / 5734161139222659 - (1686629713 / 2 ^ 34 + 2242054355 / 2 ^ 69)) := by
      ring
    rw [hid]
    refine (abs_add _ _).trans ?_
    rw [abs_div, abs_mul, abs_of_pos (by norm_num : (0 : ℚ) < 5734161139222659 / 2 ^ 49)]
    have hc : |(2 : ℚ) ^ 49 / 5734161139222659 - (1686629713 / 2 ^ 34 + 2242054355 / 2 ^ 69)| ≤
        1 / 2 ^ 57 := by
      rw [abs_le]; norm_num
    calc _ ≤ (1 / 2 + 1 / 2 ^ 32) / (5734161139222659 / 2 ^ 49) + 917874 * (1 / 2 ^ 57) :=
          add_le_add (div_le_div_of_nonneg_right hB (by norm_num))
            (mul_le_mul hN hc (abs_nonneg _) (by norm_num))
      _ ≤ _ := by norm_num
  -- the products with `N` in range
  have hP1 : |(Consts.ofMem double).p1 * N| ≤ 90113 := by
    simp only [Consts.ofMem]
    rw [toRat_double_2128, abs_mul, abs_of_pos (by norm_num : (0 : ℚ) < 1686629713 / 2 ^ 34)]
    linarith
  have hP2 : |(Consts.ofMem double).p2 * N| ≤ 1 / 2 ^ 10 := by
    simp only [Consts.ofMem]
    rw [toRat_double_2112, abs_mul, abs_of_pos (by norm_num : (0 : ℚ) < 2242054355 / 2 ^ 69)]
    linarith
  have hsmall : 1 / (2 * toRat (double 2160)) + 1 / 2 ^ 34 ≤ 1 / 16 := by
    rw [toRat_double_2160]; norm_num
  have hR := abs_reduce_r_sub_le hr _ (hE.trans hsmall) hP1 hP2
  linarith [abs_sub_abs_le_abs_sub (reduce rnd (Consts.ofMem double) X N).r
    (X - N * ((Consts.ofMem double).p1 + (Consts.ofMem double).p2))]

end

/-- On the main path the reduced argument `r` stays within `π/64 + 2^-32`, under any rounding
    with relative error at most `2^-53`. -/
theorem abs_reducedAngle_le {rnd : ℚ → ℚ} (hr : RelErr rnd) {x : BitVec 64}
    (hx : classify x = .main) :
    |((reduce rnd (Consts.ofMem double) (toRat x) (reductionMultiple rnd double x).toInt).r : ℝ)| ≤
      Real.pi / 64 + 1 / 2 ^ 32 := by
  have h := abs_reduce_r_le hr ((classify_eq_main_iff x).1 hx).2
  have hK : ((1 / (2 * toRat (double 2160)) : ℚ) : ℝ) ≤ Real.pi / 64 := by
    rw [toRat_double_2160]; push_cast; linarith [Real.pi_gt_d20]
  rw [← Rat.cast_abs]
  calc _ ≤ ((1 / (2 * toRat (double 2160)) + 1 / 2 ^ 32 : ℚ) : ℝ) := by exact_mod_cast h
    _ ≤ _ := by push_cast at hK ⊢; linarith

/-- `1.0` under exact arithmetic. -/
theorem abs_reducedAngle_le_at_one :
    RelErr id ∧ classify (double 2192) = .main ∧
      |((reduce id (Consts.ofMem double) (toRat (double 2192))
        (reductionMultiple id double (double 2192)).toInt).r : ℝ)| ≤ Real.pi / 64 + 1 / 2 ^ 32 :=
  ⟨relErr_id, by decide, abs_reducedAngle_le relErr_id (by decide)⟩

end Bionic.Libm.Cos
