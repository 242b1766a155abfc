import Bionic.Libm.RemPio2

/-
  What `__rem_pio2_fast` computes, under any rounding to nearest (`RoundsToNearest`).

  1. **Quotient** — adding and subtracting `0x1.8p52` makes `fn` an integer within `1/2` of
     `x·invpio2`, which `vcvt` returns unchanged (`quotient_spec`, `remPio2Fast_quotient`);
     `x - fn·pio2_1` is then exact.
  2. **Rounds** — in `nextRound` the subtraction `x - fn·p` loses at most one rounding `d`, and
     `(t2 - x) - t0` recovers `-d` exactly, so `w` is `fn·pt` plus `d`, each rounded
     (`nextRound_spec`).
  3. **Paths** — the exponent test after the first or second round makes the last pair
     `(y0, y1)` a fast two-sum, and `y0 + y1` is `x - n·(pio2_1 + pio2_1t)` or
     `x - n·(pio2_1 + pio2_2 + pio2_2t)` to within `2^-69·|y0|`.  When the test after the
     second fails, `y0` is below `2^-28`, the second round was exact, and after the third
     `y0 + y1` is `x - n·(pio2_1 + pio2_2 + pio2_3 + pio2_3t)` to within `2^-128`
     (`remPio2Fast_reduces`).  On every path `|y0| < 0.786` (`remPio2Fast_abs_fst_lt`).
-/

namespace Bionic.Libm.RemPio2

open Binary64 Rounding

/-! ## The quotient and one further round -/

section Rounds

variable {rnd : ℚ → ℚ} (hr : RoundsToNearest rnd)
include hr

/-- `fn = (magic + x·invpio2) - magic`: the sum lies between `2^52` and `2^53`, where the
    doubles are the integers, so `fn` is an integer nearest `x·invpio2`. -/
theorem quotient_spec {X : ℚ} (hXb : |X| < 1647100) :
    ∃ n : ℤ, rnd (rnd (toRat magic + X * toRat invpio2) - toRat magic) = n ∧
      |X * toRat invpio2 - n| ≤ 1 / 2 ∧ |n| ≤ 2 ^ 20 + 1 := by
  obtain ⟨hXc, hXc'⟩ := abs_lt.1 (abs_mul_invpio2_lt hXb)
  generalize hsdef : toRat magic + X * toRat invpio2 = s
  obtain ⟨hs, hs'⟩ : 6755399440007167 < s ∧ s < 6755399442104321 := by
    rw [← hsdef, toRat_magic]; constructor <;> linarith
  have hs0 : |s| = s := abs_of_pos (by linarith)
  have herr : |rnd s - s| ≤ 1 / 2 := by
    have := hr.abs_sub_le_of_abs_lt (e := 0) (by rw [hs0]; norm_num; linarith) (by norm_num)
      (by norm_num)
    norm_num at this; exact this
  obtain ⟨herr1, herr2⟩ := abs_le.1 herr
  obtain ⟨k, hk⟩ : OnGrid 0 (rnd s) := by
    refine (hr.representable s (by rw [hs0]; norm_num; linarith)).onGrid_of_le ?_
    rw [abs_of_pos (by linarith)]; norm_num; linarith
  rw [zpow_zero, mul_one] at hk
  have hkm : |((k - 6755399441055744 : ℤ) : ℚ)| < 1048578 := by
    rw [abs_lt]; push_cast; rw [← hk]; constructor <;> linarith
  have hexact : rnd (rnd s - toRat magic) = ((k - 6755399441055744 : ℤ) : ℚ) := by
    have hrep : Representable ((k - 6755399441055744 : ℤ) : ℚ) :=
      representable_of_onGrid (e := 0) ⟨k - 6755399441055744, by simp⟩ (hkm.trans (by norm_num))
        (by norm_num) (by norm_num)
    rw [toRat_magic, hk, show (k : ℚ) - 6755399441055744 = ((k - 6755399441055744 : ℤ) : ℚ) by
      push_cast; ring, hr.exact hrep]
  refine ⟨k - 6755399441055744, hexact, ?_, ?_⟩
  · rw [show X * toRat invpio2 - ((k - 6755399441055744 : ℤ) : ℚ) = s - rnd s by
      rw [hk, ← hsdef, toRat_magic]; push_cast; ring, abs_sub_comm]
    exact herr
  · have : |k - 6755399441055744| < 1048578 := by exact_mod_cast hkm
    omega

theorem nextRound_zero {x p pt : ℚ} (hx : Representable x) : nextRound rnd 0 x p pt = ⟨x, 0, x⟩ := by
  simp only [nextRound, zero_mul, hr.map_zero, sub_zero, hr.exact hx, sub_self]

/-- With `n = 0` no round changes anything: the result is `(x, 0)`. -/
theorem rounds_zero {j : ℤ} {x : ℚ} (hx : Representable x) : rounds rnd j 0 x = ⟨x, 0, x⟩ := by
  simp only [rounds, zero_mul, hr.map_zero, sub_zero, hr.exact hx, nextRound_zero hr hx]
  split_ifs <;> rfl

/-- A further round whose product `t0 = fn·p` is a double and whose operands lie on the grid
    of `g`: the new remainder is on the grid of `g - 1`, `x - x'` is exact, the second
    subtraction recovers the error of `x'` exactly, and `w` is `fn·pt` rounded plus that error,
    rounded. -/
theorem nextRound_spec {fn x p pt : ℚ} {g : ℤ} (hg : -100 ≤ g) (hg' : g ≤ -60)
    (ht0 : Representable (fn * p)) (hx : Representable x) (hxg : OnGrid g x)
    (ht0g : OnGrid g (fn * p)) (hxb : |x| < 1) (ht0b : |fn * p| ≤ 3 / 4 * 2 ^ (g + 52)) :
    OnGrid (g - 1) (nextRound rnd fn x p pt).x ∧
      Representable ((nextRound rnd fn x p pt).x - (x - fn * p)) ∧
      |(nextRound rnd fn x p pt).x - (x - fn * p)| ≤ |x - fn * p| / 2 ^ 53 ∧
      (|x - fn * p| < 2 ^ (g + 53) → (nextRound rnd fn x p pt).x = x - fn * p) ∧
      (nextRound rnd fn x p pt).w =
        rnd (rnd (fn * pt) + ((nextRound rnd fn x p pt).x - (x - fn * p))) := by
  have hx' : (nextRound rnd fn x p pt).x = rnd (x - fn * p) := by
    simp only [nextRound, hr.exact ht0]
  rw [hx']
  have hP : (2 : ℚ) ^ (-52 : ℤ) ≤ 2 ^ (g + 50) := zpow_le_zpow_right₀ one_le_two (by omega)
  have hP' : (2 : ℚ) ^ (g + 50) ≤ 2 ^ (-10 : ℤ) := zpow_le_zpow_right₀ one_le_two (by omega)
  have h52 : (2 : ℚ) ^ (g + 52) = 4 * 2 ^ (g + 50) := by
    rw [show g + 52 = g + 50 + 2 by ring, zpow_add₀ two_ne_zero]; norm_num; ring
  have h53 : (2 : ℚ) ^ (g + 53) = 8 * 2 ^ (g + 50) := by
    rw [show g + 53 = g + 50 + 3 by ring, zpow_add₀ two_ne_zero]; norm_num; ring
  have h51 : (2 : ℚ) ^ (g - 1 + 52) = 2 * 2 ^ (g + 50) := by
    rw [show g - 1 + 52 = g + 50 + 1 by ring, zpow_add₀ two_ne_zero]; norm_num; ring
  have h52' : (2 : ℚ) ^ (g - 1 + 53) = 4 * 2 ^ (g + 50) := by rw [← h52]; congr 1; ring
  norm_num at hP hP'
  have hsub : |x - fn * p| ≤ |x| + |fn * p| := abs_sub _ _
  have hxt1 : |x - fn * p| < 2 := by linarith only [hsub, hxb, ht0b, h52, hP']
  have hxt : |x - fn * p| < 2 ^ 1023 := hxt1.trans (by norm_num)
  obtain ⟨hd, hdb⟩ := hr.sub_error hx ht0 hxt
  have hd' : |rnd (x - fn * p) - (x - fn * p)| ≤ 2 ^ (g + 50) := by
    refine hdb.trans ?_; rw [div_le_iff₀ (by norm_num)]; linarith only [hxt1, hP]
  have hexact : |x - fn * p| < 2 ^ (g + 53) → rnd (x - fn * p) = x - fn * p := fun h =>
    hr.exact (representable_of_onGrid (hxg.sub ht0g) h (by omega) (by omega))
  have hgrid : OnGrid (g - 1) (rnd (x - fn * p)) := by
    by_cases h : |x - fn * p| < 2 ^ (g + 53)
    · rw [hexact h]; exact (hxg.sub ht0g).mono (by omega)
    · push_neg at h
      refine (hr.representable _ hxt).onGrid_of_le ?_
      have := abs_sub_abs_le_abs_sub (x - fn * p) (rnd (x - fn * p))
      rw [abs_sub_comm (x - fn * p)] at this
      linarith only [this, h, hd', h51, h53, hP]
  have hex : Representable (x - rnd (x - fn * p)) := by
    refine representable_of_onGrid ((hxg.mono (by omega)).sub hgrid) ?_ (by omega) (by omega)
    rw [show x - rnd (x - fn * p) = fn * p - (rnd (x - fn * p) - (x - fn * p)) by ring, h52']
    have := abs_sub (fn * p) (rnd (x - fn * p) - (x - fn * p))
    linarith only [this, ht0b, hdb, hxt1, h52, hP]
  refine ⟨hgrid, hd, hdb, hexact, ?_⟩
  simp only [nextRound, hr.exact ht0, hr.exact hex]
  rw [show x - rnd (x - fn * p) - fn * p = -(rnd (x - fn * p) - (x - fn * p)) by ring,
    hr.exact hd.neg, sub_neg_eq_add]

end Rounds

/-- The rounding contract's range, for the small values of the reduction. -/
theorem abs_lt_of_lt_one {q : ℚ} (h : |q| < 1) : |q| < 2 ^ 1023 := h.trans (by norm_num)

/-- An argument of at least `1/2` below `2^(j - 1022)` has `j ≥ 1022`. -/
theorem j_ge {X : ℚ} {j : ℤ} (hj : |X| < 2 ^ (j - 1022)) (hX : 1 / 2 ≤ |X|) : 1022 ≤ j := by
  have h : (2 : ℚ) ^ (-1 : ℤ) < 2 ^ (j - 1022) := by norm_num; linarith
  have := (zpow_lt_zpow_iff_right₀ one_lt_two).1 h
  omega

/-! ## The three paths -/

section Paths

variable {rnd : ℚ → ℚ} (hr : RoundsToNearest rnd) {X : ℚ} {n j : ℤ} (hX : Representable X)
  (hXb : |X| < 1647100) (hn : |X * toRat invpio2 - n| ≤ 1 / 2) (hnb : |n| ≤ 2 ^ 20 + 1)
  (hn0 : n ≠ 0) (hj : |X| < 2 ^ (j - 1022))
include hr hX hXb hn hnb hn0 hj

/-- One round (`ti ≤ 16`): `y0` has lost at most 16 binary places against `x`, so `w` is small
    against the remainder, the pair is a fast two-sum, and the only error left is the rounding
    of `n·pio2_1t`. -/
theorem firstRound_reduces {r : Round}
    (hround : ⟨X - n * toRat pio2_1, rnd (n * toRat pio2_1t),
      rnd (X - n * toRat pio2_1 - rnd (n * toRat pio2_1t))⟩ = r)
    (hti : j - expField r.y0 ≤ 16) :
    |r.y0 + rnd (rnd (r.x - r.y0) - r.w) - (X - n * pio2First)| ≤ |r.y0| / 2 ^ 69 ∧
      |r.y0| < 786 / 1000 := by
  subst hround
  dsimp only at hti ⊢
  obtain ⟨hx1, -⟩ := representable_firstRemainder hXb hn hX
  have hx1b := abs_firstRemainder_lt hXb hn
  obtain ⟨hXh, hnX⟩ := abs_ge_of_ne_zero hn hn0
  have h17 := abs_lt_of_ti_le hj (by have := j_ge hj hXh; omega) hti
  have hp : 0 < toRat pio2_1t := by rw [toRat_pio2_1t]; norm_num
  have hnp : |(n : ℚ) * toRat pio2_1t| ≤ 2 * |X| * toRat invpio2 * toRat pio2_1t := by
    rw [abs_mul, abs_of_pos hp]; exact mul_le_mul_of_nonneg_right hnX hp.le
  have hnpb := abs_mul_pio2_1t_le hnb
  have hnp1 : |(n : ℚ) * toRat pio2_1t| < 1 := hnpb.trans_lt (by norm_num)
  have hw := hr.abs_sub_le_rel (onGrid_int_mul n representable_pio2_1t) (abs_lt_of_lt_one hnp1)
  have hwr := hr.representable _ (abs_lt_of_lt_one hnp1)
  generalize rnd (n * toRat pio2_1t) = w at hw hwr h17 ⊢
  generalize hx1def : X - n * toRat pio2_1 = x1 at hx1 hx1b h17 ⊢
  have hwb := abs_sub_abs_le_abs_sub w (n * toRat pio2_1t)
  have h1 := abs_sub x1 w
  have hy := (hr.sub_error hx1 hwr
    (abs_lt_of_lt_one (by linarith only [h1, hx1b, hwb, hw, hnpb]))).2
  have hy' := abs_sub_abs_le_abs_sub (rnd (x1 - w)) (x1 - w)
  have hyn := abs_nonneg (rnd (x1 - w))
  refine ⟨?_, by linarith only [hy, hy', h1, hx1b, hwb, hw, hnpb]⟩
  rw [toRat_invpio2, toRat_pio2_1t] at hnp
  rw [toRat_pio2_1t] at hwb hw
  norm_num at h17
  rw [hr.fastTwoSum hx1 hwr (by linarith only [hwb, hw, hnp, h17, hy, hy', h1, hyn])
    (hx1b.trans (by norm_num)), show x1 - w - (X - n * pio2First) =
    n * toRat pio2_1t - w by rw [← hx1def, pio2First]; ring, abs_sub_comm, toRat_pio2_1t]
  linarith only [hw, hnp, h17, hyn]

omit hj in
/-- The second round, whatever the test after it: its `x` is `x1 - n·pio2_2` up to the error `d`
    of one subtraction (none when the difference is below `2^-12`), its `w` is `t1`, the rounded
    `n·pio2_2t`, plus `d`, rounded, and its `y0` is `x - w` rounded. -/
theorem secondRound_spec {r : Round}
    (hround : nextRound rnd n (X - n * toRat pio2_1) (toRat pio2_2) (toRat pio2_2t) = r) :
    ∃ t1 d : ℚ, |t1 - n * toRat pio2_2t| ≤ |(n : ℚ) * toRat pio2_2t| / 2 ^ 53 ∧
      |d| ≤ |X - n * toRat pio2_1 - n * toRat pio2_2| / 2 ^ 53 ∧
      (|X - n * toRat pio2_1 - n * toRat pio2_2| < 2 ^ (-12 : ℤ) → d = 0) ∧
      r.x = X - n * toRat pio2_1 - n * toRat pio2_2 + d ∧ Representable r.x ∧ |r.x| < 1 ∧
      Representable r.w ∧ |r.w - (t1 + d)| ≤ |t1 + d| / 2 ^ 53 ∧
      r.y0 = rnd (r.x - r.w) ∧ |r.y0 - (r.x - r.w)| ≤ |r.x - r.w| / 2 ^ 53 := by
  obtain ⟨hx1, hx1g⟩ := representable_firstRemainder hXb hn hX
  have hx1b := abs_firstRemainder_lt hXb hn
  have ht0 := representable_mul_pio2_2 hnb
  have ht0b := abs_mul_pio2_2_le hnb
  have hx1t0 := abs_sub (X - n * toRat pio2_1) (n * toRat pio2_2)
  obtain ⟨-, hd, hdb, hd0, hw⟩ := nextRound_spec hr (g := -65) (by norm_num) (by norm_num) ht0 hx1
    ((hx1g hn0).mono (by norm_num)) (onGrid_mul_pio2_2 n) (hx1b.trans (by norm_num))
    (ht0b.trans (by norm_num))
  have hxr : Representable (nextRound rnd n (X - n * toRat pio2_1) (toRat pio2_2)
      (toRat pio2_2t)).x := by
    simp only [nextRound, hr.exact ht0]
    exact hr.representable _ (abs_lt_of_lt_one (by linarith only [hx1t0, hx1b, ht0b]))
  have hy0 : r.y0 = rnd (r.x - r.w) := by rw [← hround]; rfl
  rw [hround] at hd hdb hd0 hw hxr
  have hnpb := abs_mul_pio2_2t_le hnb
  have hnp1 : |(n : ℚ) * toRat pio2_2t| < 1 := hnpb.trans_lt (by norm_num)
  have ht1 := hr.abs_sub_le_rel (onGrid_int_mul n representable_pio2_2t) (abs_lt_of_lt_one hnp1)
  have ht1r := hr.representable _ (abs_lt_of_lt_one hnp1)
  generalize rnd (n * toRat pio2_2t) = t1 at ht1 ht1r hw
  generalize hddef : r.x - (X - n * toRat pio2_1 - n * toRat pio2_2) = d at hd hdb hd0 hw
  have hrx : r.x = X - n * toRat pio2_1 - n * toRat pio2_2 + d := by rw [← hddef]; ring
  have hdb' : |d| ≤ 1 / 2 ^ 53 :=
    hdb.trans (div_le_div_of_nonneg_right (by linarith only [hx1t0, hx1b, ht0b]) (by norm_num))
  have hxb : |r.x| < 4 / 5 := by
    have := abs_add (X - n * toRat pio2_1 - n * toRat pio2_2) d
    rw [hrx]; linarith only [this, hx1t0, hx1b, ht0b, hdb']
  have htd : |t1 + d| < 1 / 10 ^ 3 := by
    have := abs_add t1 d
    have := abs_sub_abs_le_abs_sub t1 (n * toRat pio2_2t)
    linarith only [this, ‹|t1 + d| ≤ |t1| + |d|›, ht1, hnpb, hdb', abs_nonneg ((n : ℚ) * toRat pio2_2t)]
  have hwb : |r.w - (t1 + d)| ≤ |t1 + d| / 2 ^ 53 := by
    rw [hw]; exact hr.abs_sub_le_rel (ht1r.onGrid_min.add hd.onGrid_min)
      (abs_lt_of_lt_one (htd.trans (by norm_num)))
  have hwr : Representable r.w := by
    rw [hw]; exact hr.representable _ (abs_lt_of_lt_one (htd.trans (by norm_num)))
  have hxw : |r.x - r.w| < 1 := by
    have := abs_sub r.x r.w
    have := abs_sub_abs_le_abs_sub r.w (t1 + d)
    linarith only [this, ‹|r.x - r.w| ≤ |r.x| + |r.w|›, hxb, htd, hwb]
  refine ⟨t1, d, ht1, hdb, fun h => by rw [← hddef, hd0 (by rwa [show (-65 : ℤ) + 53 = -12 by rfl]),
    sub_self], hrx, hxr, hxb.trans (by norm_num), hwr, hwb, hy0, ?_⟩
  rw [hy0]
  exact (hr.sub_error hxr hwr (abs_lt_of_lt_one hxw)).2

/-- Two rounds (`ti ≤ 49` after the second): the last pair is a fast two-sum, and what is left
    is the rounding of `n·pio2_2t` and of `w`. -/
theorem secondRound_reduces {r : Round}
    (hround : nextRound rnd n (X - n * toRat pio2_1) (toRat pio2_2) (toRat pio2_2t) = r)
    (hti : j - expField r.y0 ≤ 49) :
    |r.y0 + rnd (rnd (r.x - r.y0) - r.w) - (X - n * pio2Second)| ≤ |r.y0| / 2 ^ 69 ∧
      |r.y0| < 786 / 1000 := by
  obtain ⟨t1, d, ht1, hdb, -, hrx, hxr, hxb, hwr, hwb, hy0, hy⟩ :=
    secondRound_spec hr hX hXb hn hnb hn0 hround
  obtain ⟨hXh, hnX⟩ := abs_ge_of_ne_zero hn hn0
  have h50 := abs_lt_of_ti_le hj (by have := j_ge hj hXh; omega) hti
  rw [hy0] at h50 hy ⊢
  have hp : 0 < toRat pio2_2t := by rw [toRat_pio2_2t]; norm_num
  have hnp : |(n : ℚ) * toRat pio2_2t| ≤ 2 * |X| * toRat invpio2 * toRat pio2_2t := by
    rw [abs_mul, abs_of_pos hp]; exact mul_le_mul_of_nonneg_right hnX hp.le
  have hx1t : |X - n * toRat pio2_1 - n * toRat pio2_2| ≤ |r.x| + |d| := by
    rw [show X - n * toRat pio2_1 - n * toRat pio2_2 = r.x - d by rw [hrx]; ring]
    exact abs_sub _ _
  have ht1b := abs_sub_abs_le_abs_sub t1 (n * toRat pio2_2t)
  have htd := abs_add t1 d
  have hw' := abs_sub_abs_le_abs_sub r.w (t1 + d)
  have h1 := abs_sub r.x r.w
  have h2 := abs_sub_abs_le_abs_sub r.x r.w
  have hy' := abs_sub_abs_le_abs_sub (r.x - r.w) (rnd (r.x - r.w))
  rw [abs_sub_comm (r.x - r.w)] at hy'
  have hy'' := abs_sub_abs_le_abs_sub (rnd (r.x - r.w)) (r.x - r.w)
  have hyn := abs_nonneg (rnd (r.x - r.w))
  -- `y0` is the first remainder less `n·pio2_2`, up to roundings
  have hy0b : |rnd (r.x - r.w)| < 786 / 1000 := by
    have hx1b := abs_firstRemainder_lt hXb hn
    have hp := abs_mul_pio2_2_le hnb
    have hp' := abs_mul_pio2_2t_le hnb
    have hx1t' := abs_sub (X - n * toRat pio2_1) (n * toRat pio2_2)
    have hxb' : |r.x| ≤ |X - n * toRat pio2_1 - n * toRat pio2_2| + |d| := by
      rw [hrx]; exact abs_add _ _
    linarith only [hy, hy'', h1, hxb', hx1t', hx1b, hp, hdb, hw', hwb, htd, ht1b, ht1, hp']
  refine ⟨?_, hy0b⟩
  rw [toRat_invpio2, toRat_pio2_2t] at hnp
  rw [toRat_pio2_2t] at ht1 ht1b
  norm_num at h50
  have hK : |(n : ℚ) * (5376105825661043 / 2 ^ 121)| ≤ |rnd (r.x - r.w)| / 2 ^ 18 := by
    linarith only [hnp, h50, hyn]
  have hxw : |r.x - r.w| ≤ 2 * |rnd (r.x - r.w)| := by linarith only [hy, hy', hyn]
  have hdy : |d| ≤ |rnd (r.x - r.w)| / 2 ^ 50 := by
    linarith only [hdb, hx1t, h2, hxw, hw', hwb, htd, ht1b, ht1, hK, hyn]
  have h8 : 8 * |r.w| ≤ 3 * |r.x| := by
    linarith only [hw', hwb, htd, ht1b, ht1, hK, hdy, h1, hy, hy'', hyn]
  rw [hr.fastTwoSum hxr hwr h8 (hxb.trans (by norm_num)), show r.x - r.w - (X - n * pio2Second) =
    -(r.w - (t1 + d)) - (t1 - n * toRat pio2_2t) by rw [hrx, pio2Second]; ring]
  have := abs_sub (-(r.w - (t1 + d))) (t1 - n * toRat pio2_2t)
  rw [abs_neg, toRat_pio2_2t] at this
  rw [toRat_pio2_2t]
  linarith only [this, hwb, htd, ht1, ht1b, hK, hdy, hyn]

omit hj in
/-- Three rounds (`ti > 49` after the second): the second round's `y0` is then below `2^-28`, so
    its `x` is exact and on the grid of `2^-65`, the third round's `x` is off by a rounding `d3`
    that its `w` carries, and the last pair, a two-sum, is off by less than `2^-128`. -/
theorem thirdRound_reduces {r2 r : Round}
    (hround2 : nextRound rnd n (X - n * toRat pio2_1) (toRat pio2_2) (toRat pio2_2t) = r2)
    (hround : nextRound rnd n r2.x (toRat pio2_3) (toRat pio2_3t) = r)
    (hj' : 2 ^ (j - 1023) ≤ |X|) (hti : ¬ j - expField r2.y0 ≤ 49) :
    |r.y0 + rnd (rnd (r.x - r.y0) - r.w) - (X - n * pio2Third)| ≤ 1 / 2 ^ 128 ∧
      |r.y0| < 786 / 1000 := by
  obtain ⟨t1, d, ht1, hdb, hd0, hrx, hxr, -, -, hwb, hy0, hy⟩ :=
    secondRound_spec hr hX hXb hn hnb hn0 hround2
  have h49 := abs_lt_of_lt_ti hj' hti
  rw [hy0] at h49 hy
  have hp2 := abs_mul_pio2_2t_le hnb
  -- the second round's `x` is below `2^-27`, so its subtraction was exact
  have hx2 : |r2.x| < 4 / 10 ^ 9 := by
    have := abs_sub_abs_le_abs_sub (r2.x - r2.w) (rnd (r2.x - r2.w))
    rw [abs_sub_comm (r2.x - r2.w)] at this
    have h1 := abs_sub_abs_le_abs_sub r2.x r2.w
    have h2 := abs_sub_abs_le_abs_sub r2.w (t1 + d)
    have h3 := abs_sub_abs_le_abs_sub t1 (n * toRat pio2_2t)
    have h4 : |X - n * toRat pio2_1 - n * toRat pio2_2| ≤ |r2.x| + |d| := by
      rw [show X - n * toRat pio2_1 - n * toRat pio2_2 = r2.x - d by rw [hrx]; ring]
      exact abs_sub _ _
    have h5 : |X| / 2 ^ (49 : ℤ) < 3 / 10 ^ 9 := by
      rw [div_lt_iff₀ (zpow_pos two_pos _)]; norm_num; linarith only [hXb]
    linarith only [this, h1, h2, h3, h4, h5, h49, hy, hwb, abs_add t1 d, ht1, hp2, hdb]
  have hd : d = 0 := hd0 <| by
    have : |X - n * toRat pio2_1 - n * toRat pio2_2| ≤ |r2.x| + |d| := by
      rw [show X - n * toRat pio2_1 - n * toRat pio2_2 = r2.x - d by rw [hrx]; ring]
      exact abs_sub _ _
    have hdb' : |d| ≤ 1 / 2 ^ 53 :=
      hdb.trans (div_le_div_of_nonneg_right (by linarith only [this, hdb, hx2]) (by norm_num))
    exact (this.trans_lt (by linarith only [hx2, hdb'] : |r2.x| + |d| < 1 / 10 ^ 8)).trans
      (by norm_num)
  rw [hd, add_zero] at hrx
  -- the third round, on the grid of `2^-96`
  obtain ⟨hx1, hx1g⟩ := representable_firstRemainder hXb hn hX
  have hxg : OnGrid (-96) r2.x := by
    rw [hrx]; exact (((hx1g hn0).mono (by norm_num)).sub (onGrid_mul_pio2_2 n)).mono (by norm_num)
  have ht0 := representable_mul_pio2_3 hnb
  have ht0b := abs_mul_pio2_3_le hnb
  obtain ⟨-, hd3, hd3b, -, hw3⟩ := nextRound_spec hr (g := -96) (by norm_num) (by norm_num) ht0 hxr
    hxg (onGrid_mul_pio2_3 n) (hx2.trans (by norm_num)) (ht0b.trans (by norm_num))
  have hxr3 : Representable (nextRound rnd n r2.x (toRat pio2_3) (toRat pio2_3t)).x := by
    simp only [nextRound, hr.exact ht0]
    exact hr.representable _ (abs_lt_of_lt_one ((abs_sub _ _).trans_lt (by linarith only [hx2, ht0b])))
  have hy3 : r.y0 = rnd (r.x - r.w) := by rw [← hround]; rfl
  rw [hround] at hd3 hd3b hw3 hxr3
  have hp3 := abs_mul_pio2_3t_le hnb
  have hp3' : |(n : ℚ) * toRat pio2_3t| < 1 := hp3.trans_lt (by norm_num)
  have ht3 := hr.abs_sub_le_rel (onGrid_int_mul n representable_pio2_3t) (abs_lt_of_lt_one hp3')
  have ht3r := hr.representable _ (abs_lt_of_lt_one hp3')
  generalize rnd (n * toRat pio2_3t) = t3 at ht3 ht3r hw3
  generalize hd3def : r.x - (r2.x - n * toRat pio2_3) = d3 at hd3 hd3b hw3
  have hx23 : |r2.x - n * toRat pio2_3| < 5 / 10 ^ 9 := by
    have := abs_sub r2.x (n * toRat pio2_3); linarith only [this, hx2, ht0b]
  have hd3b' : |d3| ≤ 5 / 10 ^ 9 / 2 ^ 53 :=
    hd3b.trans (div_le_div_of_nonneg_right hx23.le (by norm_num))
  have htd : |t3 + d3| ≤ 1 / 10 ^ 24 := by
    have := abs_sub_abs_le_abs_sub t3 (n * toRat pio2_3t)
    linarith only [this, abs_add t3 d3, ht3, hp3, hd3b']
  have hw3b : |r.w - (t3 + d3)| ≤ |t3 + d3| / 2 ^ 53 := by
    rw [hw3]; exact hr.abs_sub_le_rel (ht3r.onGrid_min.add hd3.onGrid_min)
      (abs_lt_of_lt_one (htd.trans_lt (by norm_num)))
  have hw3r : Representable r.w := by
    rw [hw3]; exact hr.representable _ (abs_lt_of_lt_one (htd.trans_lt (by norm_num)))
  have hwb' : |r.w| ≤ 2 / 10 ^ 24 := by
    have := abs_sub_abs_le_abs_sub r.w (t3 + d3); linarith only [this, hw3b, htd]
  have hxb' : |r.x| ≤ 6 / 10 ^ 9 := by
    have := abs_sub_abs_le_abs_sub r.x (r2.x - n * toRat pio2_3)
    rw [hd3def] at this; linarith only [this, hx23, hd3b']
  have htwo := hr.abs_twoSum_sub_le hxr3 hw3r (hxb'.trans_lt (by norm_num))
    (hwb'.trans_lt (by norm_num))
  have h3 := abs_sub r.x r.w
  have hy0b : |rnd (r.x - r.w)| < 786 / 1000 := by
    have hy := (hr.sub_error hxr3 hw3r (abs_lt_of_lt_one (by linarith only [h3, hxb', hwb']))).2
    have hy' := abs_sub_abs_le_abs_sub (rnd (r.x - r.w)) (r.x - r.w)
    linarith only [hy, hy', h3, hxb', hwb']
  rw [hy3]
  refine ⟨?_, hy0b⟩
  rw [show rnd (r.x - r.w) + rnd (rnd (r.x - rnd (r.x - r.w)) - r.w) - (X - n * pio2Third) =
      (rnd (r.x - r.w) + rnd (rnd (r.x - rnd (r.x - r.w)) - r.w) - (r.x - r.w)) -
        (r.w - (t3 + d3)) - (t3 - n * toRat pio2_3t) by
    rw [pio2Third, ← hd3def, hrx]; ring]
  have h1 := abs_sub (rnd (r.x - r.w) + rnd (rnd (r.x - rnd (r.x - r.w)) - r.w) - (r.x - r.w))
    (r.w - (t3 + d3))
  have h2 := abs_sub (rnd (r.x - r.w) + rnd (rnd (r.x - rnd (r.x - r.w)) - r.w) - (r.x - r.w) -
    (r.w - (t3 + d3))) (t3 - n * toRat pio2_3t)
  linarith only [h1, h2, h3, htwo, hw3b, htd, ht3, hp3, hwb', hxb']

end Paths

/-! ## The reduction -/

section Reduction

variable {rnd : ℚ → ℚ} (hr : RoundsToNearest rnd) (remPio2Large : BitVec 64 → ℚ × ℚ × BitVec 32)
include hr

/-- `__rem_pio2_fast` hands the arguments at or above `1647100`, infinities and NaNs with them,
    to `__rem_pio2_large` untouched, and for the others returns in `r0` an integer within `1/2`
    of `x·(2/π)`. -/
theorem remPio2Fast_quotient (x : BitVec 64) :
    (1647100 ≤ |toRat x| → remPio2Fast rnd remPio2Large x = remPio2Large x) ∧
      (|toRat x| < 1647100 →
        |toRat x * toRat invpio2 - (remPio2Fast rnd remPio2Large x).2.2.toInt| ≤ 1 / 2) := by
  refine ⟨fun h => ?_, fun h => ?_⟩
  · unfold remPio2Fast; dsimp only
    rw [if_neg (by rw [medium_iff]; exact not_lt.2 h)]
  · obtain ⟨n, hfn, hn, hnb⟩ := quotient_spec hr h
    unfold remPio2Fast; dsimp only
    rw [if_pos ((medium_iff x).2 h), hfn, vcvtS32_intCast hnb]
    exact hn

omit hr in
theorem remPio2Fast_quotient_nearest :
    RoundsToNearest nearestBinary64 ∧
      (1647100 ≤ |toRat pio2_1| →
        remPio2Fast nearestBinary64 (fun _ => (0, 0, 0)) pio2_1 = (0, 0, 0)) ∧
      (|toRat pio2_1| < 1647100 → |toRat pio2_1 * toRat invpio2 -
        (remPio2Fast nearestBinary64 (fun _ => (0, 0, 0)) pio2_1).2.2.toInt| ≤ 1 / 2) :=
  ⟨roundsToNearest_nearestBinary64,
    remPio2Fast_quotient roundsToNearest_nearestBinary64 (fun _ => (0, 0, 0)) pio2_1⟩

/-- The medium path, by the number of rounds it runs: the error of `y0 + y1` against
    `x - n·π/2` for the pieces of `π/2` used, and the size of `y0`. -/
theorem remPio2Fast_spec {x : BitVec 64} (hx : |toRat x| < 1647100) :
    let y := remPio2Fast rnd remPio2Large x
    (|y.1 + y.2.1 - (toRat x - y.2.2.toInt * pio2First)| ≤ |y.1| / 2 ^ 69 ∨
      |y.1 + y.2.1 - (toRat x - y.2.2.toInt * pio2Second)| ≤ |y.1| / 2 ^ 69 ∨
      |y.1 + y.2.1 - (toRat x - y.2.2.toInt * pio2Third)| ≤ 1 / 2 ^ 128) ∧
      |y.1| < 786 / 1000 := by
  obtain ⟨n, hfn, hn, hnb⟩ := quotient_spec hr hx
  have hX := representable_toRat hx
  have hx1 := hr.exact (representable_firstRemainder hx hn hX).1
  unfold remPio2Fast; dsimp only
  rw [if_pos ((medium_iff x).2 hx), hfn, hx1, vcvtS32_intCast hnb, j_eq]
  by_cases hn0 : n = 0
  · -- no round changes `x`, which is below `1/(2·invpio2)`
    subst hn0
    simp only [Int.cast_zero, zero_mul, sub_zero, rounds_zero hr hX, sub_self, hr.map_zero,
      add_zero, abs_zero] at hn ⊢
    rw [abs_mul, toRat_invpio2,
      abs_of_pos (show (0 : ℚ) < 5734161139222659 / 2 ^ 53 by norm_num)] at hn
    exact ⟨.inl (by positivity), by linarith only [hn]⟩
  have hj := abs_toRat_lt_two_zpow x
  have hj' := two_zpow_le_abs_toRat x (by
    have := j_ge hj (abs_ge_of_ne_zero hn hn0).1; omega)
  unfold rounds; dsimp only
  split_ifs with h1 h2
  · obtain ⟨he, hy⟩ := firstRound_reduces hr hX hx hn hnb hn0 hj rfl h1
    exact ⟨.inl he, hy⟩
  · obtain ⟨he, hy⟩ := secondRound_reduces hr hX hx hn hnb hn0 hj rfl h2
    exact ⟨.inr (.inl he), hy⟩
  · obtain ⟨he, hy⟩ := thirdRound_reduces hr hX hx hn hnb hn0 rfl rfl hj' h2
    exact ⟨.inr (.inr he), hy⟩

/-- For `|x| < 1647100`, `y0 + y1` is `x - n·π/2` with the returned `n` and `π/2` taken as the
    pieces that the rounds used: after one or two rounds to within `2^-69·|y0|`, after three
    to within `2^-128`. -/
theorem remPio2Fast_reduces {x : BitVec 64} (hx : |toRat x| < 1647100) :
    let y := remPio2Fast rnd remPio2Large x
    |y.1 + y.2.1 - (toRat x - y.2.2.toInt * pio2First)| ≤ |y.1| / 2 ^ 69 ∨
      |y.1 + y.2.1 - (toRat x - y.2.2.toInt * pio2Second)| ≤ |y.1| / 2 ^ 69 ∨
      |y.1 + y.2.1 - (toRat x - y.2.2.toInt * pio2Third)| ≤ 1 / 2 ^ 128 :=
  (remPio2Fast_spec hr remPio2Large hx).1

omit hr in
theorem remPio2Fast_reduces_nearest :
    RoundsToNearest nearestBinary64 ∧ |toRat pio2_1| < 1647100 ∧
      let y := remPio2Fast nearestBinary64 (fun _ => (0, 0, 0)) pio2_1
      |y.1 + y.2.1 - (toRat pio2_1 - y.2.2.toInt * pio2First)| ≤ |y.1| / 2 ^ 69 ∨
        |y.1 + y.2.1 - (toRat pio2_1 - y.2.2.toInt * pio2Second)| ≤ |y.1| / 2 ^ 69 ∨
        |y.1 + y.2.1 - (toRat pio2_1 - y.2.2.toInt * pio2Third)| ≤ 1 / 2 ^ 128 :=
  have hx : |toRat pio2_1| < 1647100 := by rw [toRat_pio2_1, abs_of_pos (by norm_num)]; norm_num
  ⟨roundsToNearest_nearestBinary64, hx,
    remPio2Fast_reduces roundsToNearest_nearestBinary64 (fun _ => (0, 0, 0)) hx⟩

/-- The head of the reduced argument stays below `0.786`, within `2^-10` of `π/4`: the range
    the kernels that take `(y0, y1)` are written for. -/
theorem remPio2Fast_abs_fst_lt {x : BitVec 64} (hx : |toRat x| < 1647100) :
    |(remPio2Fast rnd remPio2Large x).1| < 786 / 1000 :=
  (remPio2Fast_spec hr remPio2Large hx).2

omit hr in
theorem remPio2Fast_abs_fst_lt_nearest :
    RoundsToNearest nearestBinary64 ∧ |toRat pio2_1| < 1647100 ∧
      |(remPio2Fast nearestBinary64 (fun _ => (0, 0, 0)) pio2_1).1| < 786 / 1000 :=
  have hx : |toRat pio2_1| < 1647100 := by rw [toRat_pio2_1, abs_of_pos (by norm_num)]; norm_num
  ⟨roundsToNearest_nearestBinary64, hx,
    remPio2Fast_abs_fst_lt roundsToNearest_nearestBinary64 (fun _ => (0, 0, 0)) hx⟩

end Reduction

end Bionic.Libm.RemPio2
