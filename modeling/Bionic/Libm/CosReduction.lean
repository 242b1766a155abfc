import Bionic.Libm.CosDataflow
import Bionic.Libm.CosDispatch

/-
  Range reduction on the main path of `cos`: how large `N` gets, and why the products the
  reduction forms with it are exact.

  The header comment restricts the main path to `|N| ≤ 932560`, the bound under which
  `N · P_1` and `N · P_2` are exact.  The code never tests `N`; the dispatcher's bound
  `|x| < 90112` has to imply it.  With `32/π` stored as `K` (offset 2160), `N` is the
  truncation of `rnd (rnd (K x) + copysign(1/2, x))`:

  * `RelErr` — the rounding model: relative error at most `2^-53`, as round-to-nearest has
    (for results in the normal range);
  * `abs_reductionMultiple_le` — under it, `|N| ≤ 917874` for every `|x| < 90112`;
  * `representable_mul_p1`, `representable_mul_p2` — `P_1` has a 31-bit and `P_2` a 32-bit
    significand, so `N · P_i` is a double for every `|N| ≤ 932560`;
  * `entryOffset_eq` — the table offset, computed in 32-bit arithmetic, is
    `32 · ((N + 16) mod 64)` (`1865232 = 16 + 64 · 29144`).
-/

namespace Bionic.Libm.Cos

open Binary64 CosTable Sse

/-! ## The rounding model -/

/-- `rnd` has relative error at most `2^-53`. -/
def RelErr (rnd : ℚ → ℚ) : Prop := ∀ q, |rnd q - q| ≤ |q| / 2 ^ 53

theorem RelErr.abs_le {rnd : ℚ → ℚ} (h : RelErr rnd) (q : ℚ) :
    |rnd q| ≤ |q| * (1 + 1 / 2 ^ 53) := by
  have := h q
  have := abs_sub_abs_le_abs_sub (rnd q) q
  linarith

/-- Exact arithmetic is a rounding with no error. -/
theorem relErr_id : RelErr id := fun q => by
  simp only [id, sub_self, abs_zero]; positivity

/-! ## The constants the reduction reads -/

theorem toRat_double_2160 : toRat (double 2160) = 5734161139222659 / 2 ^ 49 := by
  rw [toRat_normal (show (double 2160).toNat = (1025 + 1) * 2 ^ 52 + 1230561511852163 by decide)
    (by norm_num) (by norm_num)]
  norm_num

theorem toRat_double_2128 : toRat (double 2128) = 1686629713 / 2 ^ 34 := by
  rw [toRat_normal (show (double 2128).toNat = (1018 + 1) * 2 ^ 52 + 2570638124384256 by decide)
    (by norm_num) (by norm_num)]
  norm_num

theorem toRat_double_2112 : toRat (double 2112) = 2242054355 / 2 ^ 69 := by
  rw [toRat_normal (show (double 2112).toNat = (984 + 1) * 2 ^ 52 + 198329147326464 by decide)
    (by norm_num) (by norm_num)]
  norm_num

theorem toRat_double_2240 : toRat (double 2240) = 1 / 2 := by
  rw [toRat_normal (show (double 2240).toNat = (1021 + 1) * 2 ^ 52 + 0 by decide)
    (by norm_num) (by norm_num)]
  norm_num

/-- `orps` of `1/2` with the sign bit that `andpd` kept: `copysign(1/2, x)`. -/
theorem copysignHalf (x : BitVec 64) :
    toRat (double 2240 ||| double 2224 &&& x) = if x.msb then -(1 / 2) else 1 / 2 := by
  rw [show double 2224 = signMask by decide, signMask_and]
  split
  · rw [show double 2240 ||| signMask = neg (double 2240) by decide, toRat_neg, toRat_double_2240]
  · rw [show double 2240 ||| 0 = double 2240 by decide, toRat_double_2240]

theorem abs_copysignHalf (x : BitVec 64) : |toRat (double 2240 ||| double 2224 &&& x)| = 1 / 2 := by
  rw [copysignHalf]; split <;> norm_num

/-! ## Truncation -/

theorem abs_truncate_le (q : ℚ) : |(truncate q : ℚ)| ≤ |q| := by
  unfold truncate
  split
  · -- `⌊q⌋` for `0 ≤ q`
    rename_i h
    have h0 : (0 : ℚ) ≤ ⌊q⌋ := by exact_mod_cast Int.floor_nonneg.2 h
    rw [abs_of_nonneg h0, abs_of_nonneg h]; exact Int.floor_le q
  · -- `⌈q⌉` for `q < 0`
    rename_i h
    have h0 : (⌈q⌉ : ℚ) ≤ 0 := by exact_mod_cast Int.ceil_le.2 (by push_cast; linarith)
    rw [abs_of_nonpos h0, abs_of_neg (by linarith)]; exact neg_le_neg (Int.le_ceil q)

theorem truncate_neg (q : ℚ) : truncate (-q) = -truncate q := by
  unfold truncate
  rcases lt_trichotomy q 0 with h | rfl | h
  · rw [if_pos (by linarith), if_neg (by linarith), Int.floor_neg]
  · simp
  · rw [if_neg (by linarith), if_pos h.le, Int.ceil_neg]

/-- Inside the 32-bit range `cvttsd2si` is truncation. -/
theorem toInt_cvttsd2si {q : ℚ} (h : |q| < 2 ^ 31) : (cvttsd2si q).toInt = truncate q := by
  have ht : |truncate q| < 2 ^ 31 := by exact_mod_cast (abs_truncate_le q).trans_lt h
  rw [abs_lt] at ht
  rw [cvttsd2si, if_pos ⟨by omega, by omega⟩, BitVec.toInt_ofInt, Int.bmod_def]
  push_cast
  split <;> omega

/-- Inside the 32-bit range `cvttsd2si` is odd (at `-2^31` it is not). -/
theorem cvttsd2si_neg {q : ℚ} (h : |q| < 2 ^ 31) : cvttsd2si (-q) = -cvttsd2si q := by
  have ht : |truncate q| < 2 ^ 31 := by exact_mod_cast (abs_truncate_le q).trans_lt h
  rw [abs_lt] at ht
  rw [cvttsd2si, cvttsd2si, truncate_neg, if_pos ⟨by omega, by omega⟩, if_pos ⟨by omega, by omega⟩]
  apply BitVec.eq_of_toInt_eq
  rw [BitVec.toInt_ofInt, BitVec.toInt_neg, BitVec.toInt_ofInt, Int.bmod_def, Int.bmod_def,
    Int.bmod_def]
  push_cast
  split <;> split <;> split <;> omega

/-! ## The bound on `N` -/

/-- The argument of `cvttsd2si` on the main path stays below `917875`. -/
theorem abs_reductionArg_lt {rnd : ℚ → ℚ} (hr : RelErr rnd) {x : BitVec 64}
    (hx : |toRat x| < 90112) :
    |rnd (rnd (toRat (double 2160) * toRat x) + toRat (double 2240 ||| double 2224 &&& x))| <
      917875 := by
  have hy : |rnd (toRat (double 2160) * toRat x)| ≤ 917874 :=
    calc |rnd (toRat (double 2160) * toRat x)|
        ≤ |toRat (double 2160) * toRat x| * (1 + 1 / 2 ^ 53) := hr.abs_le _
      _ = toRat (double 2160) * |toRat x| * (1 + 1 / 2 ^ 53) := by
        rw [abs_mul, abs_of_pos (by rw [toRat_double_2160]; norm_num)]
      _ ≤ toRat (double 2160) * 90112 * (1 + 1 / 2 ^ 53) :=
        mul_le_mul_of_nonneg_right (mul_le_mul_of_nonneg_left hx.le
          (by rw [toRat_double_2160]; norm_num)) (by norm_num)
      _ ≤ 917874 := by rw [toRat_double_2160]; norm_num
  calc _ ≤ |rnd (toRat (double 2160) * toRat x) + toRat (double 2240 ||| double 2224 &&& x)| *
          (1 + 1 / 2 ^ 53) := hr.abs_le _
    _ ≤ (917874 + 1 / 2) * (1 + 1 / 2 ^ 53) := by
      refine mul_le_mul_of_nonneg_right ((abs_add _ _).trans ?_) (by norm_num)
      rw [abs_copysignHalf]; linarith
    _ < 917875 := by norm_num

theorem abs_reductionMultiple_le {rnd : ℚ → ℚ} (hr : RelErr rnd) {x : BitVec 64}
    (hx : |toRat x| < 90112) : |(reductionMultiple rnd double x).toInt| ≤ 917874 := by
  have hs := abs_reductionArg_lt hr hx
  rw [reductionMultiple, toInt_cvttsd2si (hs.trans (by norm_num))]
  have : |truncate (rnd (rnd (toRat (double 2160) * toRat x) +
      toRat (double 2240 ||| double 2224 &&& x)))| < 917875 := by
    exact_mod_cast (abs_truncate_le _).trans_lt hs
  omega

/-! ## Exact products and the table offset -/

theorem representable_mul_p1 {n : ℤ} (hn : |n| ≤ 932560) :
    Representable (n * toRat (double 2128)) :=
  ⟨n * 1686629713, -34, by rw [abs_mul]; norm_num; omega, by norm_num, by norm_num,
    by rw [toRat_double_2128]; push_cast; ring⟩

theorem representable_mul_p2 {n : ℤ} (hn : |n| ≤ 932560) :
    Representable (n * toRat (double 2112)) :=
  ⟨n * 2242054355, -69, by rw [abs_mul]; norm_num; omega, by norm_num, by norm_num,
    by rw [toRat_double_2112]; push_cast; ring⟩

/-- The 32-bit offset computation is `32 · ((N + 16) mod 64)` for every `N`. -/
theorem entryOffset_eq (n : BitVec 32) :
    ((entryOffset n).toNat : ℤ) = 32 * ((n.toInt + 16) % 64) := by
  rw [entryOffset_toNat, BitVec.toNat_and, show (63 : BitVec 32).toNat = 2 ^ 6 - 1 from rfl,
    Nat.and_pow_two_sub_one_eq_mod, BitVec.toNat_add,
    show (1865232 : BitVec 32).toNat = 1865232 from rfl, BitVec.toInt_eq_toNat_cond]
  have := n.isLt
  split <;> omega

theorem entryOffset_add_le (n : BitVec 32) : (entryOffset n).toNat + 32 ≤ 2048 := by
  have := entryIndex_lt n
  rw [entryOffset_toNat]; omega

/-- The dispatcher routes by the value of the argument, and on the main path, under any
    rounding with relative error at most `2^-53`, the reduction multiple `N` stays within the
    header's bound `932560`, the products `N · P_1` and `N · P_2` are exact, and the entry
    offset is `32 · ((N + 16) mod 64)`, a whole entry inside the 2048 bytes of entries. -/
theorem dispatch_and_reduction :
    (∀ x : BitVec 64,
      (classify x = .main ↔ (2 : ℚ) ^ (-252 : ℤ) ≤ |toRat x| ∧ |toRat x| < 90112) ∧
      (classify x = .tiny ↔ |toRat x| < (2 : ℚ) ^ (-252 : ℤ)) ∧
      (classify x = .nan ↔ bexp (mag x) = 2047) ∧
      (classify x = .huge ↔ isFinite x = true ∧ 90112 ≤ |toRat x|)) ∧
    (∀ rnd : ℚ → ℚ, RelErr rnd → ∀ x : BitVec 64, classify x = .main →
      let n := reductionMultiple rnd double x
      |n.toInt| ≤ 932560 ∧
      Representable (n.toInt * toRat (double 2128)) ∧
      Representable (n.toInt * toRat (double 2112)) ∧
      ((entryOffset n).toNat : ℤ) = 32 * ((n.toInt + 16) % 64) ∧
      (entryOffset n).toNat + 32 ≤ 2048) := by
  refine ⟨fun x => ⟨classify_eq_main_iff x, classify_eq_tiny_iff x, classify_eq_nan_iff x,
    classify_eq_huge_iff x⟩, fun rnd hr x hx => ?_⟩
  have hn : |(reductionMultiple rnd double x).toInt| ≤ 932560 :=
    (abs_reductionMultiple_le hr ((classify_eq_main_iff x).1 hx).2).trans (by norm_num)
  exact ⟨hn, representable_mul_p1 hn, representable_mul_p2 hn, entryOffset_eq _,
    entryOffset_add_le _⟩

/-- `1.0` (the double at 2192) is on the main path, under exact arithmetic. -/
theorem dispatch_and_reduction_at_one :
    RelErr id ∧ classify (double 2192) = .main ∧
      (let n := reductionMultiple id double (double 2192)
      |n.toInt| ≤ 932560 ∧
      Representable (n.toInt * toRat (double 2128)) ∧
      Representable (n.toInt * toRat (double 2112)) ∧
      ((entryOffset n).toNat : ℤ) = 32 * ((n.toInt + 16) % 64) ∧
      (entryOffset n).toNat + 32 ≤ 2048) :=
  ⟨relErr_id, by decide, dispatch_and_reduction.2 id relErr_id (double 2192) (by decide)⟩

end Bionic.Libm.Cos
