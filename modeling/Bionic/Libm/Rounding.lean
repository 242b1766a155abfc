import Bionic.Libm.Binary64
import Mathlib.Data.Rat.Floor
import Mathlib.Data.Int.Log

/-
  Rounding to nearest binary64, and the exact operations of floating-point arithmetic that the
  ARM `__rem_pio2_fast` (second listing of `e_cosh.c`) is built on; `tanh` uses two of them
  (a finite word is a double, and `x + x` is exact).

  The x86 `cos` needs of its rounding only a relative error bound (`RelErr`).  The ARM
  reduction needs more: that some of its operations are exact.  A rounding lands on the
  binary64 grid, so a result between `2^52` and `2^53` is an integer; a difference of two
  doubles on a coarse enough grid is a double; and the error of a rounded subtraction can be
  recovered with two more operations.

  1. **Grids** — `OnGrid e q`: `q` is an integer multiple of `2^e`.  `ulpExp q` is the exponent
     of the last place of a double of `q`'s magnitude.  A double lies on the grid of its own
     `ulpExp` (`Representable.onGrid`), and a multiple of `2^e` below `2^(e+53)` is a double
     (`representable_of_onGrid`); the proofs use nothing else of `Representable`.
  2. **The contract** — `RoundsToNearest rnd`: below `2^1023` the result is a double, and no
     double is nearer the exact value.  IEEE 754 round-to-nearest meets it away from overflow,
     whatever its rule for ties; `nearestBinary64` (ties upward) shows that it can be met.
  3. **Consequences** — a double is its own rounding (`exact`); the error is at most half the
     last place (`abs_sub_le`), so a relative `2^-53` on the subnormal grid
     (`abs_sub_le_rel`); Sterbenz's lemma (`representable_sub`); the error of a rounded sum of
     two doubles is a double (`representable_error`); and after a subtraction `a - b` with
     `8|b| ≤ 3|a|` the pair `rnd (a - b)`, `rnd (rnd (a - rnd (a - b)) - b)` sums to `a - b`
     exactly (`fastTwoSum`).
-/

namespace Bionic.Libm.Binary64

/-! ## Grids and the exponent of the last place -/

/-- `q` is an integer multiple of `2^e`. -/
def OnGrid (e : ℤ) (q : ℚ) : Prop := ∃ k : ℤ, q = k * 2 ^ e

/-- The exponent of the last place of a double of `q`'s magnitude: `52` below the leading
    bit, and never below the subnormal spacing `2^-1074`. -/
def ulpExp (q : ℚ) : ℤ := max (Int.log 2 |q| - 52) (-1074)

section Grid

variable {e e' : ℤ} {a b q : ℚ}

theorem OnGrid.mono (h : OnGrid e q) (he : e' ≤ e) : OnGrid e' q := by
  obtain ⟨k, rfl⟩ := h
  refine ⟨k * 2 ^ (e - e').toNat, ?_⟩
  rw [Int.cast_mul, Int.cast_pow, Int.cast_ofNat, ← zpow_natCast, Int.toNat_of_nonneg (by omega),
    mul_assoc, ← zpow_add₀ two_ne_zero, sub_add_cancel]

theorem OnGrid.add (ha : OnGrid e a) (hb : OnGrid e b) : OnGrid e (a + b) := by
  obtain ⟨k, rfl⟩ := ha
  obtain ⟨l, rfl⟩ := hb
  exact ⟨k + l, by push_cast; ring⟩

theorem OnGrid.neg (h : OnGrid e q) : OnGrid e (-q) := by
  obtain ⟨k, rfl⟩ := h
  exact ⟨-k, by push_cast; ring⟩

theorem OnGrid.sub (ha : OnGrid e a) (hb : OnGrid e b) : OnGrid e (a - b) := by
  rw [sub_eq_add_neg]; exact ha.add hb.neg

theorem OnGrid.int_mul (k : ℤ) (h : OnGrid e q) : OnGrid e (k * q) := by
  obtain ⟨l, rfl⟩ := h
  exact ⟨k * l, by push_cast; ring⟩

/-- A multiple of `2^e` below `2^(e+53)` has a significand of at most `2^53 - 1`. -/
theorem OnGrid.abs_le_of_lt (h : OnGrid e q) (hq : |q| < 2 ^ (e + 53)) :
    |q| ≤ (2 ^ 53 - 1) * 2 ^ e := by
  obtain ⟨k, rfl⟩ := h
  have hp : (0 : ℚ) < 2 ^ e := zpow_pos two_pos e
  rw [abs_mul, abs_of_pos hp, zpow_add₀ two_ne_zero, mul_comm] at hq
  have hk : |k| < 2 ^ 53 := by exact_mod_cast lt_of_mul_lt_mul_left hq hp.le
  have hk' : |(k : ℚ)| ≤ 2 ^ 53 - 1 := by
    have : |k| ≤ 2 ^ 53 - 1 := by omega
    exact_mod_cast this
  rw [abs_mul, abs_of_pos hp]
  exact mul_le_mul_of_nonneg_right hk' hp.le

theorem neg_1074_le_ulpExp (q : ℚ) : -1074 ≤ ulpExp q := le_max_right _ _

/-- Every rational lies below the binade above its last place. -/
theorem abs_lt_two_zpow_ulpExp (q : ℚ) : |q| < 2 ^ (ulpExp q + 53) := by
  have h := Int.lt_zpow_succ_log_self (R := ℚ) (b := 2) one_lt_two |q|
  push_cast at h
  have := le_max_left (Int.log 2 |q| - 52) (-1074)
  exact h.trans_le (zpow_le_zpow_right₀ one_le_two (by unfold ulpExp; omega))

/-- From `2^-1022` on (the normal range), `ulpExp` is `52` below the leading bit. -/
theorem two_zpow_le_of_normal (hq : 2 ^ (-1022 : ℤ) ≤ |q|) : 2 ^ (ulpExp q + 52) ≤ |q| := by
  have hq0 : 0 < |q| := lt_of_lt_of_le (zpow_pos two_pos _) hq
  have hlog : (-1022 : ℤ) ≤ Int.log 2 |q| :=
    (Int.zpow_le_iff_le_log (R := ℚ) (b := 2) one_lt_two hq0).1 (by exact_mod_cast hq)
  have hu : ulpExp q = Int.log 2 |q| - 52 := by unfold ulpExp; omega
  rw [hu, sub_add_cancel]
  exact_mod_cast Int.zpow_log_le_self (b := 2) one_lt_two hq0

/-- The exponent of any written form `m * 2^e` of a nonzero double bounds its `ulpExp`. -/
theorem ulpExp_le_of_eq {m : ℤ} (hm : |m| < 2 ^ 53) (he : -1074 ≤ e) (h0 : (m : ℚ) * 2 ^ e ≠ 0) :
    ulpExp (m * 2 ^ e) ≤ e := by
  have hp : (0 : ℚ) < 2 ^ e := zpow_pos two_pos e
  have hlt : |(m : ℚ) * 2 ^ e| < (2 : ℕ) ^ (e + 53) := by
    rw [abs_mul, abs_of_pos hp, Nat.cast_ofNat, zpow_add₀ two_ne_zero, mul_comm]
    exact mul_lt_mul_of_pos_left (by exact_mod_cast hm) hp
  have := (Int.lt_zpow_iff_log_lt one_lt_two (abs_pos.2 h0)).1 hlt
  unfold ulpExp; omega

theorem Representable.onGrid (h : Representable q) : OnGrid (ulpExp q) q := by
  by_cases h0 : q = 0
  · exact ⟨0, by simp [h0]⟩
  obtain ⟨m, e, hm, he, -, rfl⟩ := h
  exact OnGrid.mono ⟨m, rfl⟩ (ulpExp_le_of_eq hm he h0)

theorem Representable.ulpExp_le (h : Representable q) : ulpExp q ≤ 971 := by
  by_cases h0 : q = 0
  · simp [h0, ulpExp]
  obtain ⟨m, e, hm, he, he', rfl⟩ := h
  exact (ulpExp_le_of_eq hm he h0).trans he'

/-- A double of magnitude at least `2^(e+52)` lies on the grid of `e`. -/
theorem Representable.onGrid_of_le (h : Representable q) (hq : 2 ^ (e + 52) ≤ |q|) :
    OnGrid e q := by
  have hq0 : 0 < |q| := lt_of_lt_of_le (zpow_pos two_pos _) hq
  have : e + 52 ≤ Int.log 2 |q| :=
    (Int.zpow_le_iff_le_log (R := ℚ) (b := 2) one_lt_two hq0).1 (by exact_mod_cast hq)
  exact h.onGrid.mono (le_max_of_le_left (by omega))

theorem representable_zero : Representable 0 := ⟨0, 0, by norm_num, by norm_num, by norm_num, by simp⟩

/-- Every double lies on the subnormal grid. -/
theorem Representable.onGrid_min (h : Representable q) : OnGrid (-1074) q :=
  h.onGrid.mono (neg_1074_le_ulpExp q)

theorem Representable.neg (h : Representable q) : Representable (-q) := by
  obtain ⟨m, e, hm, he, he', rfl⟩ := h
  exact ⟨-m, e, by rwa [abs_neg], he, he', by push_cast; ring⟩

/-- A multiple of `2^e` below `2^(e+53)` is a double, for `e` in the format's range. -/
theorem representable_of_onGrid (h : OnGrid e q) (hq : |q| < 2 ^ (e + 53)) (he : -1074 ≤ e)
    (he' : e ≤ 971) : Representable q := by
  obtain ⟨k, rfl⟩ := h
  refine ⟨k, e, ?_, he, he', rfl⟩
  have hp : (0 : ℚ) < 2 ^ e := zpow_pos two_pos e
  rw [abs_mul, abs_of_pos hp, zpow_add₀ two_ne_zero, mul_comm] at hq
  have := lt_of_mul_lt_mul_left hq hp.le
  exact_mod_cast this

/-- Doubling a double below `2^1023` is exact: the exponent goes up by one, or at the top
    exponent the significand has a bit to spare. -/
theorem Representable.add_self (h : Representable q) (hq : |q| < 2 ^ 1023) :
    Representable (q + q) := by
  obtain ⟨m, e, hm, he, he', rfl⟩ := h
  rcases lt_or_eq_of_le he' with he' | rfl
  · exact ⟨m, e + 1, hm, by omega, by omega, by rw [zpow_add_one₀ two_ne_zero]; ring⟩
  -- at the top exponent `q + q` is still on the grid of `2^971`, below `2^1024`
  refine representable_of_onGrid ⟨2 * m, by push_cast; ring⟩ ?_ (by norm_num) le_rfl
  rw [show (971 : ℤ) + 53 = ((1024 : ℕ) : ℤ) from rfl, zpow_natCast, pow_succ]
  linarith [abs_add ((m : ℚ) * 2 ^ (971 : ℤ)) ((m : ℚ) * 2 ^ (971 : ℤ))]

/-- Sterbenz: a difference of two doubles that is no larger than either of them is a double. -/
theorem representable_sub (ha : Representable a) (hb : Representable b) (h1 : |a - b| ≤ |a|)
    (h2 : |a - b| ≤ |b|) : Representable (a - b) := by
  have hg : OnGrid (min (ulpExp a) (ulpExp b)) (a - b) :=
    (ha.onGrid.mono (min_le_left _ _)).sub (hb.onGrid.mono (min_le_right _ _))
  refine representable_of_onGrid hg ?_ (le_min (neg_1074_le_ulpExp a) (neg_1074_le_ulpExp b))
    ((min_le_left _ _).trans ha.ulpExp_le)
  rcases min_choice (ulpExp a) (ulpExp b) with h | h <;> rw [h]
  · exact h1.trans_lt (abs_lt_two_zpow_ulpExp a)
  · exact h2.trans_lt (abs_lt_two_zpow_ulpExp b)

/-- Every finite word denotes a double: its significand is the fraction field (zero and
    subnormals) or `2^52` plus it, its exponent `bexp - 1075`. -/
theorem representable_toRat_of_isFinite {x : BitVec 64} (hx : isFinite x = true) :
    Representable (toRat x) := by
  have hb : bexp (mag x) < 2047 := of_decide_eq_true hx
  have hf := frac_lt (mag x)
  have hsign : toRat x = (if x.msb then -1 else 1) * (scaled (mag x) : ℚ) / 2 ^ 1074 := by
    unfold toRat; split <;> ring
  rw [hsign]
  by_cases h0 : bexp (mag x) = 0
  · refine ⟨(if x.msb then -1 else 1) * (frac (mag x) : ℤ), -1074, ?_, le_rfl, by norm_num, ?_⟩
    · rw [abs_lt]; split <;> constructor <;> omega
    · rw [scaled, if_pos h0, show (-1074 : ℤ) = -((1074 : ℕ) : ℤ) by rfl, zpow_neg, zpow_natCast]
      split <;> push_cast <;> ring
  · refine ⟨(if x.msb then -1 else 1) * (2 ^ 52 + frac (mag x) : ℤ), bexp (mag x) - 1 - 1074,
      ?_, by omega, by omega, ?_⟩
    · rw [abs_lt]; split <;> constructor <;> omega
    · rw [scaled, if_neg h0, show (bexp (mag x) : ℤ) - 1 - 1074 =
        ((bexp (mag x) - 1 : ℕ) : ℤ) - (1074 : ℕ) by omega, zpow_sub₀ two_ne_zero, zpow_natCast,
        zpow_natCast]
      split <;> push_cast <;> ring

end Grid

end Bionic.Libm.Binary64

namespace Bionic.Libm.Rounding

open Binary64

/-! ## A rounding to nearest -/

/-- A rounding to a nearest binary64 value (ties upward), with no overflow. -/
def nearestBinary64 (q : ℚ) : ℚ := round (q / 2 ^ ulpExp q) * 2 ^ ulpExp q

/-- Scaling by `2^e` turns the distance from `q / 2^e` to an integer into a distance to `q`. -/
theorem abs_int_mul_sub (k : ℤ) (e : ℤ) (q : ℚ) :
    |k * 2 ^ e - q| = |q / 2 ^ e - k| * 2 ^ e := by
  have hp : (0 : ℚ) < 2 ^ e := zpow_pos two_pos e
  rw [← abs_of_pos hp, ← abs_mul, abs_of_pos hp, abs_sub_comm]
  congr 1
  field_simp
  ring

theorem abs_nearestBinary64_sub_le (q : ℚ) : |nearestBinary64 q - q| ≤ 2 ^ (ulpExp q - 1) := by
  rw [nearestBinary64, abs_int_mul_sub, zpow_sub_one₀ two_ne_zero]
  calc _ ≤ 1 / 2 * (2 : ℚ) ^ ulpExp q :=
        mul_le_mul_of_nonneg_right (abs_sub_round _) (zpow_pos two_pos _).le
    _ = _ := by ring

theorem representable_nearestBinary64 {q : ℚ} (hq : |q| < 2 ^ 1023) :
    Representable (nearestBinary64 q) := by
  set u := ulpExp q
  set k := round (q / 2 ^ u)
  have hp : (0 : ℚ) < 2 ^ u := zpow_pos two_pos u
  have hu : u ≤ 970 := by
    by_cases hq0 : q = 0
    · simp [u, ulpExp, hq0]
    have hq' : |q| < (2 : ℚ) ^ ((1023 : ℕ) : ℤ) := by rwa [zpow_natCast]
    have : Int.log 2 |q| < 1023 :=
      (Int.lt_zpow_iff_log_lt (R := ℚ) (b := 2) one_lt_two (abs_pos.2 hq0)).1
        (by exact_mod_cast hq')
    have := le_max_left (Int.log 2 |q| - 52) (-1074)
    simp only [u, ulpExp]; omega
  -- the significand `k` is at most `2^53`
  have hk : |k| ≤ 2 ^ 53 := by
    have h1 := abs_lt_two_zpow_ulpExp q
    have h2 := abs_nearestBinary64_sub_le q
    have h3 : (|k| : ℚ) * 2 ^ u < (2 ^ 53 + 1) * 2 ^ u := by
      rw [zpow_add₀ two_ne_zero, zpow_sub_one₀ two_ne_zero] at *
      rw [nearestBinary64] at h2
      have := abs_sub_abs_le_abs_sub ((k : ℚ) * 2 ^ u) q
      rw [abs_mul, abs_of_pos hp] at this
      nlinarith [abs_nonneg q]
    have := lt_of_mul_lt_mul_right h3 hp.le
    have : |k| < 2 ^ 53 + 1 := by exact_mod_cast this
    omega
  rcases hk.lt_or_eq with hk | hk
  · exact ⟨k, u, hk, neg_1074_le_ulpExp q, by omega, rfl⟩
  -- `k = ±2^53`: the same value is `±2^52` at the next exponent
  have hs : (2 : ℚ) ^ u = 2 ^ (u + 1) / 2 := by rw [zpow_add_one₀ two_ne_zero]; ring
  rcases abs_eq (by norm_num : (0 : ℤ) ≤ 2 ^ 53) |>.1 hk with hk | hk
  · exact ⟨2 ^ 52, u + 1, by norm_num, by have := neg_1074_le_ulpExp q; omega, by omega,
      by rw [show nearestBinary64 q = k * 2 ^ u from rfl, hk, hs]; push_cast; ring⟩
  · exact ⟨-2 ^ 52, u + 1, by norm_num, by have := neg_1074_le_ulpExp q; omega, by omega,
      by rw [show nearestBinary64 q = k * 2 ^ u from rfl, hk, hs]; push_cast; ring⟩

/-- No double is nearer: on the grid of `ulpExp q` because `round` is nearest among integers,
    and a double on a finer grid lies a half-place below the binade of `q`. -/
theorem nearestBinary64_nearest {q v : ℚ} (hv : Representable v) :
    |nearestBinary64 q - q| ≤ |v - q| := by
  set u := ulpExp q
  by_cases hg : u ≤ ulpExp v
  · -- `v` is on the grid of `u`
    obtain ⟨k, rfl⟩ := hv.onGrid.mono hg
    rw [nearestBinary64, abs_int_mul_sub, abs_int_mul_sub]
    exact mul_le_mul_of_nonneg_right (round_le _ k) (zpow_pos two_pos u).le
  · -- `v` is on a finer grid, so `|v| ≤ 2^(u+52) - 2^(u-1) ≤ |q| - 2^(u-1)`
    push_neg at hg
    by_cases hq0 : q = 0
    · simp [nearestBinary64, hq0]
    have hu : u = Int.log 2 |q| - 52 := by
      have := neg_1074_le_ulpExp v
      simp only [u, ulpExp] at hg ⊢; omega
    have hq : (2 : ℚ) ^ (u + 52) ≤ |q| := by
      rw [hu, sub_add_cancel]
      exact_mod_cast Int.zpow_log_le_self (b := 2) one_lt_two (abs_pos.2 hq0)
    have hv' : |v| ≤ 2 ^ (u + 52) - 2 ^ (u - 1) := by
      calc |v| ≤ (2 ^ 53 - 1) * 2 ^ ulpExp v := hv.onGrid.abs_le_of_lt (abs_lt_two_zpow_ulpExp v)
        _ ≤ (2 ^ 53 - 1) * 2 ^ (u - 1) :=
          mul_le_mul_of_nonneg_left (zpow_le_zpow_right₀ one_le_two (by omega)) (by norm_num)
        _ = _ := by
          rw [show u + 52 = u - 1 + 53 by ring, zpow_add₀ two_ne_zero]; norm_num; ring
    calc |nearestBinary64 q - q| ≤ 2 ^ (u - 1) := abs_nearestBinary64_sub_le q
      _ ≤ |q| - |v| := by linarith
      _ ≤ |v - q| := by rw [abs_sub_comm]; exact abs_sub_abs_le_abs_sub q v

/-! ## The contract and its consequences -/

/-- A rounding to nearest binary64: below `2^1023` its result is a double, and no double is
    nearer the exact value. -/
structure RoundsToNearest (rnd : ℚ → ℚ) : Prop where
  representable : ∀ q, |q| < 2 ^ 1023 → Representable (rnd q)
  nearest : ∀ q v, Representable v → |rnd q - q| ≤ |v - q|

theorem roundsToNearest_nearestBinary64 : RoundsToNearest nearestBinary64 :=
  ⟨fun _ => representable_nearestBinary64, fun _ _ => nearestBinary64_nearest⟩

namespace RoundsToNearest

variable {rnd : ℚ → ℚ} (hr : RoundsToNearest rnd) {a b q : ℚ}
include hr

theorem exact (hq : Representable q) : rnd q = q := by
  have := hr.nearest q q hq
  rw [sub_self, abs_zero] at this
  exact sub_eq_zero.1 (abs_nonpos_iff.1 this)

theorem map_zero : rnd 0 = 0 := hr.exact representable_zero

theorem abs_sub_le (hq : |q| < 2 ^ 1023) : |rnd q - q| ≤ 2 ^ (ulpExp q - 1) :=
  (hr.nearest q _ (representable_nearestBinary64 hq)).trans (abs_nearestBinary64_sub_le q)

/-- Below `2^(e+53)` the error is at most `2^(e-1)`. -/
theorem abs_sub_le_of_abs_lt {e : ℤ} (hq : |q| < 2 ^ (e + 53)) (he : -1074 ≤ e) (he' : e ≤ 970) :
    |rnd q - q| ≤ 2 ^ (e - 1) := by
  by_cases h0 : q = 0
  · rw [h0, hr.map_zero, sub_zero, abs_zero]; exact (zpow_pos two_pos _).le
  have hlog : Int.log 2 |q| < e + 53 :=
    (Int.lt_zpow_iff_log_lt (R := ℚ) (b := 2) one_lt_two (abs_pos.2 h0)).1 (by exact_mod_cast hq)
  have hu : ulpExp q ≤ e := max_le (by omega) he
  have h1 : (2 : ℚ) ^ (e + 53) ≤ 2 ^ ((1023 : ℕ) : ℤ) := zpow_le_zpow_right₀ one_le_two (by omega)
  rw [zpow_natCast] at h1
  exact (hr.abs_sub_le (hq.trans_le h1)).trans (zpow_le_zpow_right₀ one_le_two (by omega))

/-- On the subnormal grid (sums and products of doubles) the error is relative: in the normal
    range by `abs_sub_le`, and below it the exact value is already a double. -/
theorem abs_sub_le_rel (hg : OnGrid (-1074) q) (hq : |q| < 2 ^ 1023) :
    |rnd q - q| ≤ |q| / 2 ^ 53 := by
  by_cases hn : (2 : ℚ) ^ (-1022 : ℤ) ≤ |q|
  · calc |rnd q - q| ≤ 2 ^ (ulpExp q - 1) := hr.abs_sub_le hq
      _ = 2 ^ (ulpExp q + 52) / 2 ^ 53 := by
        rw [show ulpExp q + 52 = ulpExp q - 1 + 53 by ring, zpow_add₀ two_ne_zero]
        norm_num
      _ ≤ |q| / 2 ^ 53 := div_le_div_of_nonneg_right (two_zpow_le_of_normal hn) (by positivity)
  · push_neg at hn
    have hq' : |q| < 2 ^ (-1074 + 53 : ℤ) := hn.trans_le (zpow_le_zpow_right₀ one_le_two (by norm_num))
    rw [hr.exact (representable_of_onGrid hg hq' le_rfl (by norm_num)), sub_self, abs_zero]
    exact div_nonneg (abs_nonneg q) (by norm_num)

/-- The error of a rounded sum of two doubles is a double: on the grid of the finer operand,
    and no larger than either operand. -/
theorem representable_error (ha : Representable a) (hb : Representable b)
    (hab : |a + b| < 2 ^ 1023) : Representable (rnd (a + b) - (a + b)) := by
  set g := min (ulpExp a) (ulpExp b)
  have hgab : OnGrid g (a + b) :=
    (ha.onGrid.mono (min_le_left _ _)).add (hb.onGrid.mono (min_le_right _ _))
  have hg1 : -1074 ≤ g := le_min (neg_1074_le_ulpExp a) (neg_1074_le_ulpExp b)
  have hg2 : g ≤ 971 := (min_le_left _ _).trans ha.ulpExp_le
  by_cases hsmall : |a + b| < 2 ^ (g + 53)
  · rw [hr.exact (representable_of_onGrid hgab hsmall hg1 hg2), sub_self]
    exact representable_zero
  push_neg at hsmall
  -- the rounded sum is on the grid of `g`: a coarser one would put it below half of `a + b`
  have hsg : g ≤ ulpExp (rnd (a + b)) := by
    by_contra hlt
    have h1 : |rnd (a + b)| < 2 ^ (g + 52) := (abs_lt_two_zpow_ulpExp _).trans_le
      (zpow_le_zpow_right₀ one_le_two (by omega))
    have h2 := hr.abs_sub_le_rel (hgab.mono hg1) hab
    have h3 : (2 : ℚ) ^ (g + 53) = 2 * 2 ^ (g + 52) := by
      rw [show g + 53 = g + 52 + 1 by ring, zpow_add_one₀ two_ne_zero]; ring
    have h4 := abs_sub_abs_le_abs_sub (a + b) (rnd (a + b))
    rw [abs_sub_comm] at h4
    have := zpow_pos (two_pos : (0 : ℚ) < 2) (g + 52)
    linarith
  refine representable_of_onGrid (((hr.representable _ hab).onGrid.mono hsg).sub hgab) ?_ hg1 hg2
  have hda : |rnd (a + b) - (a + b)| ≤ |b| := by simpa using hr.nearest (a + b) a ha
  have hdb : |rnd (a + b) - (a + b)| ≤ |a| := by simpa using hr.nearest (a + b) b hb
  rcases min_choice (ulpExp a) (ulpExp b) with h | h <;> simp only [g, h]
  · exact hdb.trans_lt (abs_lt_two_zpow_ulpExp a)
  · exact hda.trans_lt (abs_lt_two_zpow_ulpExp b)

/-- The error of `rnd (a - b)`, for two doubles: a double of relative size `2^-53`. -/
theorem sub_error (ha : Representable a) (hb : Representable b) (hab : |a - b| < 2 ^ 1023) :
    Representable (rnd (a - b) - (a - b)) ∧ |rnd (a - b) - (a - b)| ≤ |a - b| / 2 ^ 53 := by
  rw [sub_eq_add_neg] at hab
  have h1 := hr.representable_error ha hb.neg hab
  have h2 := hr.abs_sub_le_rel (ha.onGrid_min.add hb.neg.onGrid_min) hab
  simp only [← sub_eq_add_neg] at h1 h2
  exact ⟨h1, h2⟩

/-- Fast two-sum for a subtraction that cancels little: with `s = rnd (a - b)` and
    `8|b| ≤ 3|a|`, `a - s` is exact by Sterbenz and `(a - s) - b` is the error of `s`, so the
    pair `s`, `rnd (rnd (a - s) - b)` sums to `a - b` exactly. -/
theorem fastTwoSum (ha : Representable a) (hb : Representable b) (hab : 8 * |b| ≤ 3 * |a|)
    (ha' : |a| < 2 ^ 1022) : rnd (a - b) + rnd (rnd (a - rnd (a - b)) - b) = a - b := by
  have h1 : |a - b| ≤ |a| + |b| := abs_sub _ _
  have h2 : |a| - |b| ≤ |a - b| := abs_sub_abs_le_abs_sub a b
  have hlt : |a - b| < 2 ^ 1023 := by linarith
  obtain ⟨hd, hd'⟩ := hr.sub_error ha hb hlt
  have hs := hr.representable _ hlt
  have h3 : |a - rnd (a - b)| ≤ |b| + |rnd (a - b) - (a - b)| := by
    rw [show a - rnd (a - b) = b - (rnd (a - b) - (a - b)) by ring]; exact abs_sub _ _
  have h4 : |a - b| - |rnd (a - b) - (a - b)| ≤ |rnd (a - b)| := by
    have := abs_sub_abs_le_abs_sub (a - b) (rnd (a - b))
    rw [abs_sub_comm (a - b) (rnd (a - b))] at this; linarith
  have hexact : rnd (a - rnd (a - b)) = a - rnd (a - b) :=
    hr.exact (representable_sub ha hs (by linarith) (by linarith))
  have herr : rnd (a - rnd (a - b) - b) = a - rnd (a - b) - b := by
    rw [show a - rnd (a - b) - b = -(rnd (a - b) - (a - b)) by ring]
    exact hr.exact hd.neg
  rw [hexact, herr]
  ring

/-- Without the ordering of `fastTwoSum` the same pair still sums to `a - b` up to
    `3|b|·2^-53 + |a - b|·2^-106`. -/
theorem abs_twoSum_sub_le (ha : Representable a) (hb : Representable b) (ha' : |a| < 2 ^ 1021)
    (hb' : |b| < 2 ^ 1021) :
    |rnd (a - b) + rnd (rnd (a - rnd (a - b)) - b) - (a - b)| ≤
      3 * |b| / 2 ^ 53 + |a - b| / 2 ^ 106 := by
  set s := rnd (a - b)
  have hlt : |a - b| < 2 ^ 1023 := by linarith [abs_sub a b]
  have hs := hr.representable _ hlt
  have hd0 : |s - (a - b)| ≤ |b| := by simpa using hr.nearest (a - b) a ha
  have hd0' := (hr.sub_error ha hb hlt).2
  -- `a - s` is `b` less the error of `s`
  have has : |a - s| ≤ 2 * |b| := by
    rw [show a - s = b - (s - (a - b)) by ring]; linarith [abs_sub b (s - (a - b))]
  have hts : |a - s| < 2 ^ 1023 := by linarith
  obtain ⟨-, hd1⟩ := hr.sub_error ha hs hts
  have hd1' : |rnd (a - s) - (a - s)| ≤ 2 * |b| / 2 ^ 53 :=
    hd1.trans (div_le_div_of_nonneg_right has (by norm_num))
  set t := rnd (a - s)
  have htb : |t - b| ≤ |t - (a - s)| + |s - (a - b)| := by
    rw [show t - b = (t - (a - s)) - (s - (a - b)) by ring]; exact abs_sub _ _
  obtain ⟨-, hd2⟩ := hr.sub_error (hr.representable _ hts) hb (by linarith)
  have hd2' : |rnd (t - b) - (t - b)| ≤ (2 * |b| / 2 ^ 53 + |a - b| / 2 ^ 53) / 2 ^ 53 :=
    hd2.trans (div_le_div_of_nonneg_right (by linarith) (by norm_num))
  rw [show s + rnd (t - b) - (a - b) = (t - (a - s)) + (rnd (t - b) - (t - b)) by ring]
  linarith [abs_add (t - (a - s)) (rnd (t - b) - (t - b)), abs_nonneg b]

end RoundsToNearest

end Bionic.Libm.Rounding
