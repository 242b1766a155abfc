import Bionic.Libm.Rounding

/-
  `__rem_pio2_fast` (the ARM listing that `e_cosh.c` carries after `__ieee754_cosh`): the
  reduction of a double `x` to `y0 + y1 ≈ x - n·π/2` for `|x|` below about `2^20·π/2`, with
  larger arguments, infinities and NaNs handed to `__rem_pio2_large`.

  1. **Model** — the listing as a function of the argument's word: the integer tests on its
     high word, then the double operations in order, each the exact operation rounded by `rnd`
     (`vfma` and `vfms` round once).  The exponent tests read the exponent field of `y0`
     (`expField`).  The second and third rounds are one definition (`nextRound`) applied to
     their own constants.  `__rem_pio2_large` is a parameter; the `__ret_nan` block is the
     target of no branch and has no counterpart.
  2. **Dispatch** — the medium path is taken exactly when `|x| < 1647100`, the value of the
     word `0x413921fc00000000` (`medium_iff`).
  3. **Magnitudes** — the constants as exact rationals, the exponent field `j` of the argument
     and `expField` of `y0` as powers of two around the values, the products by `n` that are
     doubles (`pio2_2`, `pio2_3` have 33 significant bits), and for an `n` within `1/2` of
     `x·invpio2` the first remainder `x - n·pio2_1`: below `0.7855`, a double, on the grid of
     `2^-53` once `n ≠ 0` (`representable_firstRemainder`).

  The rounding itself, and what the rounds compute, are in `RemPio2Reduction`.
-/

namespace Bionic.Libm.RemPio2

open Binary64

/-! ## The listing -/

/-- A double of the literal pool, as its two `.word`s, low word first. -/
def words (lo hi : BitVec 32) : BitVec 64 := hi ++ lo

/-- `.Linvpio2`: `2/π`. -/
def invpio2 : BitVec 64 := words 0x6DC9C883 0x3FE45F30

/-- `.Lmagic`: `0x1.8p52`. -/
def magic : BitVec 64 := words 0x00000000 0x43380000

/-- `.Lpio2_1`: the first 33 bits of `π/2`, then the next 53. -/
def pio2_1 : BitVec 64 := words 0x54400000 0x3FF921FB

def pio2_1t : BitVec 64 := words 0x1A626331 0x3DD0B461

/-- `.Lpio2_2`: the 33 bits after `pio2_1`, then the next 53. -/
def pio2_2 : BitVec 64 := words 0x1A600000 0x3DD0B461

def pio2_2t : BitVec 64 := words 0x2E037073 0x3BA3198A

/-- `.Lpio2_3`: the 33 bits after `pio2_2`, then the next 53. -/
def pio2_3 : BitVec 64 := words 0x2E000000 0x3BA3198A

def pio2_3t : BitVec 64 := words 0x252049C1 0x397B839A

/-- The high word of the argument (`r1`, `ixh`). -/
def hiWord (x : BitVec 64) : BitVec 32 := x.extractLsb' 32 32

/-- `vcvt.s32.f64`: conversion toward zero, saturating at the ends of the 32-bit range. -/
def vcvtS32 (q : ℚ) : BitVec 32 :=
  BitVec.ofInt 32 (max (-2 ^ 31) (min (if 0 ≤ q then ⌊q⌋ else ⌈q⌉) (2 ^ 31 - 1)))

/-- The exponent field of the word of a double `q`, as `vmov ti, ixh, y0`, the `bic` of the
    sign and `asr #20` read it: `0` for zero and subnormals. -/
def expField (q : ℚ) : ℤ := if q = 0 then 0 else max (Int.log 2 |q| + 1023) 0

/-- What a round leaves: the remainder `x`, its correction `w`, and `y0 = x - w`. -/
structure Round where
  x : ℚ
  w : ℚ
  y0 : ℚ

/-- `__2nd_round` and `__3rd_round`, with the next two pieces `p`, `pt` of `π/2`:
    `t2 = x; t0 = fn·p; t1 = fn·pt; x -= t0; w = t1 - ((t2 - x) - t0); y0 = x - w`. -/
def nextRound (rnd : ℚ → ℚ) (fn x p pt : ℚ) : Round :=
  let t0 := rnd (fn * p)
  let x' := rnd (x - t0)
  let w := rnd (rnd (fn * pt) - rnd (rnd (x - x') - t0))
  ⟨x', w, rnd (x' - w)⟩

/-- `w = fn·pio2_1t` and `__1st_round`, then a further round while `y0` has lost more than 16,
    then 49, binary places against the argument (`ti = j - exponent of y0`). -/
def rounds (rnd : ℚ → ℚ) (j : ℤ) (fn x : ℚ) : Round :=
  let w := rnd (fn * toRat pio2_1t)
  let r1 : Round := ⟨x, w, rnd (x - w)⟩
  if j - expField r1.y0 ≤ 16 then r1 else
  let r2 := nextRound rnd fn x (toRat pio2_2) (toRat pio2_2t)
  if j - expField r2.y0 ≤ 49 then r2 else
  nextRound rnd fn r2.x (toRat pio2_3) (toRat pio2_3t)

/-- `__rem_pio2_fast`: `(y0, y1, n)`, as returned in `d2`, `d3` and `r0`. -/
def remPio2Fast (rnd : ℚ → ℚ) (remPio2Large : BitVec 64 → ℚ × ℚ × BitVec 32)
    (x : BitVec 64) : ℚ × ℚ × BitVec 32 :=
  let absIxh := hiWord x &&& ~~~0x80000000#32
  if absIxh.sle 0x413921fb#32 then
    let fn := rnd (rnd (toRat magic + toRat x * toRat invpio2) - toRat magic)
    let r := rounds rnd (absIxh.sshiftRight 20).toInt fn (rnd (toRat x - fn * toRat pio2_1))
    (r.y0, rnd (rnd (r.x - r.y0) - r.w), vcvtS32 fn)
  else remPio2Large x

/-- The approximations of `π/2` that one, two and three rounds subtract `n` times. -/
def pio2First : ℚ := toRat pio2_1 + toRat pio2_1t

def pio2Second : ℚ := toRat pio2_1 + toRat pio2_2 + toRat pio2_2t

def pio2Third : ℚ := toRat pio2_1 + toRat pio2_2 + toRat pio2_3 + toRat pio2_3t

/-! ## The constants as values -/

theorem toRat_invpio2 : toRat invpio2 = 5734161139222659 / 2 ^ 53 := by
  rw [toRat_normal (show invpio2.toNat = (1021 + 1) * 2 ^ 52 + 1230561511852163 by decide)
    (by norm_num) (by norm_num)]
  norm_num

theorem toRat_magic : toRat magic = 6755399441055744 := by
  rw [toRat_normal (show magic.toNat = (1074 + 1) * 2 ^ 52 + 2251799813685248 by decide)
    (by norm_num) (by norm_num)]
  norm_num

theorem toRat_pio2_1 : toRat pio2_1 = 1686629713 / 2 ^ 30 := by
  rw [toRat_normal (show pio2_1.toNat = (1022 + 1) * 2 ^ 52 + 2570638124384256 by decide)
    (by norm_num) (by norm_num)]
  norm_num

theorem toRat_pio2_1t : toRat pio2_1t = 4701928774853425 / 2 ^ 86 := by
  rw [toRat_normal (show pio2_1t.toNat = (988 + 1) * 2 ^ 52 + 198329147482929 by decide)
    (by norm_num) (by norm_num)]
  norm_num

theorem toRat_pio2_2 : toRat pio2_2 = 2242054355 / 2 ^ 65 := by
  rw [toRat_normal (show pio2_2.toNat = (988 + 1) * 2 ^ 52 + 198329147326464 by decide)
    (by norm_num) (by norm_num)]
  norm_num

theorem toRat_pio2_2t : toRat pio2_2t = 5376105825661043 / 2 ^ 121 := by
  rw [toRat_normal (show pio2_2t.toNat = (953 + 1) * 2 ^ 52 + 872506198290547 by decide)
    (by norm_num) (by norm_num)]
  norm_num

theorem toRat_pio2_3 : toRat pio2_3 = 160220439 / 2 ^ 96 := by
  rw [toRat_normal (show pio2_3.toNat = (953 + 1) * 2 ^ 52 + 872506198065152 by decide)
    (by norm_num) (by norm_num)]
  norm_num

theorem toRat_pio2_3t : toRat pio2_3t = 7744522442262977 / 2 ^ 156 := by
  rw [toRat_normal (show pio2_3t.toNat = (918 + 1) * 2 ^ 52 + 3240922814892481 by decide)
    (by norm_num) (by norm_num)]
  norm_num

/-! ## Dispatch on the high word -/

theorem absIxh_toNat (x : BitVec 64) : (hiWord x &&& ~~~0x80000000#32).toNat = mag x / 2 ^ 32 := by
  rw [BitVec.toNat_and, BitVec.toNat_not, hiWord, BitVec.extractLsb'_toNat, mag,
    Nat.shiftRight_eq_div_pow,
    show (2 ^ 32 - 1 - (0x80000000#32).toNat) = 2 ^ 31 - 1 by rfl, Nat.and_pow_two_sub_one_eq_mod]
  omega

theorem bound_value : (scaled (0x413921fc * 2 ^ 32) : ℚ) / 2 ^ 1074 = 1647100 := by
  rw [show 0x413921fc * 2 ^ 32 = (1042 + 1) * 2 ^ 52 + 2570641005871104 by norm_num,
    scaled_normal (by norm_num)]
  norm_num

/-- `cmp abs_ixh, #0x413921fb; ble __medium` takes the medium path exactly for
    `|x| < 1647100`; infinities and NaNs go to `__rem_pio2_large`. -/
theorem medium_iff (x : BitVec 64) :
    (hiWord x &&& ~~~0x80000000#32).sle 0x413921fb#32 = true ↔ |toRat x| < 1647100 := by
  rw [← bound_value, abs_toRat_lt_iff, BitVec.sle, decide_eq_true_iff, BitVec.toInt_eq_toNat_cond,
    BitVec.toInt_eq_toNat_cond, absIxh_toNat]
  have := mag_lt x
  simp only [BitVec.toNat_ofNat]
  split <;> split <;> omega

/-- `asr j, abs_ixh, #20` is the argument's exponent field. -/
theorem j_eq (x : BitVec 64) :
    ((hiWord x &&& ~~~0x80000000#32).sshiftRight 20).toInt = (bexp (mag x) : ℤ) := by
  have := mag_lt x
  have h : (hiWord x &&& ~~~0x80000000#32).msb = false := by
    rw [BitVec.msb_eq_decide, absIxh_toNat]; simp; omega
  rw [BitVec.sshiftRight_eq_of_msb_false h, BitVec.toInt_eq_toNat_cond, BitVec.toNat_ushiftRight,
    absIxh_toNat, bexp]
  split <;> omega

/-! ## Exponents and magnitudes -/

/-- A word's value lies below `2^(bexp - 1022)`, and a normal one's at or above
    `2^(bexp - 1023)`. -/
theorem abs_toRat_lt_two_zpow (x : BitVec 64) :
    |toRat x| < 2 ^ ((bexp (mag x) : ℤ) - 1022) := by
  have hs : scaled (mag x) < 2 ^ (bexp (mag x) + 52) := by
    have := frac_lt (mag x)
    unfold scaled; split
    · simpa [*] using this
    · rw [pow_add, mul_comm (2 ^ bexp (mag x)),
        show 2 ^ 52 * 2 ^ bexp (mag x) = 2 ^ 53 * 2 ^ (bexp (mag x) - 1) by
          rw [← pow_add, ← pow_add]; congr 1; omega]
      exact Nat.mul_lt_mul_of_pos_right (by omega) (by positivity)
  rw [abs_toRat, show ((bexp (mag x) : ℤ) - 1022) = ((bexp (mag x) + 52 : ℕ) : ℤ) - (1074 : ℕ) by
    push_cast; ring, zpow_sub₀ two_ne_zero, zpow_natCast, zpow_natCast]
  exact div_lt_div_of_pos_right (by exact_mod_cast hs) (by positivity)

theorem two_zpow_le_abs_toRat (x : BitVec 64) (h : 1 ≤ bexp (mag x)) :
    2 ^ ((bexp (mag x) : ℤ) - 1023) ≤ |toRat x| := by
  have hs : 2 ^ (bexp (mag x) + 51) ≤ scaled (mag x) := by
    unfold scaled; rw [if_neg (by omega)]
    calc 2 ^ (bexp (mag x) + 51) = 2 ^ 52 * 2 ^ (bexp (mag x) - 1) := by
          rw [← pow_add]; congr 1; omega
      _ ≤ _ := Nat.mul_le_mul_right _ (by omega)
  rw [abs_toRat, show ((bexp (mag x) : ℤ) - 1023) = ((bexp (mag x) + 51 : ℕ) : ℤ) - (1074 : ℕ) by
    push_cast; ring, zpow_sub₀ two_ne_zero, zpow_natCast, zpow_natCast]
  exact div_le_div_of_nonneg_right (by exact_mod_cast hs) (by positivity)

/-- A word below `1647100` is a double. -/
theorem representable_toRat {x : BitVec 64} (hx : |toRat x| < 1647100) :
    Representable (toRat x) := by
  have hm : mag x < 0x413921fc * 2 ^ 32 := (abs_toRat_lt_iff x _).1 (by rwa [bound_value])
  exact representable_toRat_of_isFinite (decide_eq_true (by unfold bexp; omega))

theorem abs_lt_two_zpow_expField (q : ℚ) : |q| < 2 ^ (expField q - 1022) := by
  unfold expField
  split
  · rw [‹q = 0›, abs_zero]; exact zpow_pos two_pos _
  · have h := Int.lt_zpow_succ_log_self (R := ℚ) (b := 2) one_lt_two |q|
    push_cast at h
    have := le_max_left (Int.log 2 |q| + 1023) 0
    exact h.trans_le (zpow_le_zpow_right₀ one_le_two (by omega))

theorem two_zpow_expField_le {q : ℚ} (h : 1 ≤ expField q) : 2 ^ (expField q - 1023) ≤ |q| := by
  by_cases h0 : q = 0
  · simp [expField, h0] at h
  have he : expField q = Int.log 2 |q| + 1023 := by
    unfold expField at h ⊢; rw [if_neg h0] at h ⊢; omega
  rw [he, add_sub_cancel_right]
  exact_mod_cast Int.zpow_log_le_self (b := 2) one_lt_two (abs_pos.2 h0)

/-- `ti ≤ k`: `y` has lost at most `k` binary places against the argument. -/
theorem abs_lt_of_ti_le {j k : ℤ} {X y : ℚ} (hj : |X| < 2 ^ (j - 1022)) (hk : k < j)
    (hti : j - expField y ≤ k) : |X| < 2 ^ (k + 1) * |y| := by
  refine hj.trans_le ?_
  rw [show j - 1022 = (k + 1) + (j - k - 1023) by ring, zpow_add₀ two_ne_zero]
  exact mul_le_mul_of_nonneg_left ((zpow_le_zpow_right₀ one_le_two (by omega)).trans
    (two_zpow_expField_le (by omega))) (zpow_pos two_pos _).le

/-- `ti > k`: `y` has lost more than `k` binary places against the argument. -/
theorem abs_lt_of_lt_ti {j k : ℤ} {X y : ℚ} (hj : 2 ^ (j - 1023) ≤ |X|)
    (hti : ¬ j - expField y ≤ k) : |y| < |X| / 2 ^ k := by
  refine (abs_lt_two_zpow_expField y).trans_le ?_
  rw [le_div_iff₀ (zpow_pos two_pos _), ← zpow_add₀ two_ne_zero]
  exact (zpow_le_zpow_right₀ one_le_two (by omega)).trans hj

/-! ## Exact products -/

section Products

variable {n : ℤ} (hn : |n| ≤ 2 ^ 20 + 1)
include hn

theorem representable_mul_pio2_2 : Representable (n * toRat pio2_2) :=
  ⟨n * 2242054355, -65, by rw [abs_mul]; norm_num; omega, by norm_num, by norm_num,
    by rw [toRat_pio2_2]; push_cast; ring⟩

theorem representable_mul_pio2_3 : Representable (n * toRat pio2_3) :=
  ⟨n * 160220439, -96, by rw [abs_mul]; norm_num; omega, by norm_num, by norm_num,
    by rw [toRat_pio2_3]; push_cast; ring⟩

/-- A product `n · c` with `|c| ≤ b` stays below `(2^20 + 1) · b`. -/
theorem abs_mul_le {c b : ℚ} (hc : |c| ≤ b) : |(n : ℚ) * c| ≤ (2 ^ 20 + 1) * b := by
  rw [abs_mul]
  exact mul_le_mul (by exact_mod_cast hn) hc (abs_nonneg _) (by norm_num)

/-! The products by the tails and by the later pieces, against the quotient's range. -/

theorem abs_mul_pio2_1t_le : |(n : ℚ) * toRat pio2_1t| ≤ 1 / 10 ^ 4 :=
  (abs_mul_le hn (abs_of_pos (by rw [toRat_pio2_1t]; norm_num)).le).trans
    (by rw [toRat_pio2_1t]; norm_num)

theorem abs_mul_pio2_2_le : |(n : ℚ) * toRat pio2_2| ≤ 7 / 10 ^ 5 :=
  (abs_mul_le hn (abs_of_pos (by rw [toRat_pio2_2]; norm_num)).le).trans
    (by rw [toRat_pio2_2]; norm_num)

theorem abs_mul_pio2_2t_le : |(n : ℚ) * toRat pio2_2t| ≤ 1 / 10 ^ 14 :=
  (abs_mul_le hn (abs_of_pos (by rw [toRat_pio2_2t]; norm_num)).le).trans
    (by rw [toRat_pio2_2t]; norm_num)

theorem abs_mul_pio2_3_le : |(n : ℚ) * toRat pio2_3| ≤ 1 / 10 ^ 14 :=
  (abs_mul_le hn (abs_of_pos (by rw [toRat_pio2_3]; norm_num)).le).trans
    (by rw [toRat_pio2_3]; norm_num)

theorem abs_mul_pio2_3t_le : |(n : ℚ) * toRat pio2_3t| ≤ 1 / 10 ^ 25 :=
  (abs_mul_le hn (abs_of_pos (by rw [toRat_pio2_3t]; norm_num)).le).trans
    (by rw [toRat_pio2_3t]; norm_num)

end Products

theorem onGrid_mul_pio2_1 (n : ℤ) : OnGrid (-30) (n * toRat pio2_1) :=
  ⟨n * 1686629713, by rw [toRat_pio2_1]; push_cast; ring⟩

theorem onGrid_mul_pio2_2 (n : ℤ) : OnGrid (-65) (n * toRat pio2_2) :=
  ⟨n * 2242054355, by rw [toRat_pio2_2]; push_cast; ring⟩

theorem onGrid_mul_pio2_3 (n : ℤ) : OnGrid (-96) (n * toRat pio2_3) :=
  ⟨n * 160220439, by rw [toRat_pio2_3]; push_cast; ring⟩

/-- A product `n · c` with `c` a double lies on the subnormal grid. -/
theorem onGrid_int_mul (n : ℤ) {c : ℚ} (hc : Representable c) : OnGrid (-1074) (n * c) :=
  hc.onGrid_min.int_mul n

theorem representable_pio2_1t : Representable (toRat pio2_1t) :=
  ⟨4701928774853425, -86, by norm_num, by norm_num, by norm_num, by rw [toRat_pio2_1t]; norm_num⟩

theorem representable_pio2_2t : Representable (toRat pio2_2t) :=
  ⟨5376105825661043, -121, by norm_num, by norm_num, by norm_num, by rw [toRat_pio2_2t]; norm_num⟩

theorem representable_pio2_3t : Representable (toRat pio2_3t) :=
  ⟨7744522442262977, -156, by norm_num, by norm_num, by norm_num, by rw [toRat_pio2_3t]; norm_num⟩

/-! ## The quotient and the first remainder -/

/-- `vcvt` returns an integer of the quotient's range unchanged. -/
theorem vcvtS32_intCast {n : ℤ} (hn : |n| ≤ 2 ^ 20 + 1) : (vcvtS32 n).toInt = n := by
  rw [abs_le] at hn
  rw [vcvtS32, Int.floor_intCast, Int.ceil_intCast, ite_self, BitVec.toInt_ofInt, Int.bmod_def]
  push_cast
  split <;> omega

section Quotient

variable {X : ℚ} {n : ℤ} (hXb : |X| < 1647100) (hn : |X * toRat invpio2 - n| ≤ 1 / 2)

theorem abs_mul_invpio2_lt (hXb : |X| < 1647100) : |X * toRat invpio2| < 1048577 := by
  rw [abs_mul, toRat_invpio2, abs_of_pos (show (0 : ℚ) < 5734161139222659 / 2 ^ 53 by norm_num)]
  calc _ < 1647100 * (5734161139222659 / 2 ^ 53 : ℚ) := mul_lt_mul_of_pos_right hXb (by norm_num)
    _ < 1048577 := by norm_num

include hXb hn

/-- `x - n·pio2_1` is below `0.7855`: `x·invpio2` is within `1/2` of `n`. -/
theorem abs_firstRemainder_lt : |X - n * toRat pio2_1| < 7855 / 10000 := by
  have e : X - n * toRat pio2_1 = X * (1 - toRat invpio2 * toRat pio2_1) +
      toRat pio2_1 * (X * toRat invpio2 - n) := by ring
  have h1 : |X * (1 - toRat invpio2 * toRat pio2_1)| ≤ 1647100 * (4 / 10 ^ 11) := by
    rw [abs_mul]
    refine mul_le_mul hXb.le ?_ (abs_nonneg _) (by norm_num)
    rw [toRat_invpio2, toRat_pio2_1, abs_le]; norm_num
  have h2 : |toRat pio2_1 * (X * toRat invpio2 - n)| ≤ toRat pio2_1 * (1 / 2) := by
    rw [abs_mul, abs_of_pos (by rw [toRat_pio2_1]; norm_num)]
    exact mul_le_mul_of_nonneg_left hn (by rw [toRat_pio2_1]; norm_num)
  rw [e, toRat_pio2_1] at *
  exact (abs_add _ _).trans_lt (by linarith)

omit hXb in
/-- For `n ≠ 0` the argument is at least `1/2`, and `n` at most twice `|x·invpio2|`. -/
theorem abs_ge_of_ne_zero (hn0 : n ≠ 0) :
    1 / 2 ≤ |X| ∧ (|n| : ℚ) ≤ 2 * |X| * toRat invpio2 := by
  have h1 : (1 : ℚ) ≤ |(n : ℚ)| := by rw [← Int.cast_abs]; exact_mod_cast Int.one_le_abs hn0
  have h2 : (|n| : ℚ) - |X * toRat invpio2| ≤ 1 / 2 := by
    have := abs_sub_abs_le_abs_sub (n : ℚ) (X * toRat invpio2)
    rw [abs_sub_comm] at this; linarith
  rw [abs_mul, toRat_invpio2, abs_of_pos (show (0 : ℚ) < 5734161139222659 / 2 ^ 53 by norm_num)]
    at h2
  rw [toRat_invpio2]
  constructor <;> linarith

/-- `x - n·pio2_1` is a double, on the grid of `2^-53` once `n ≠ 0`: `pio2_1` has 31
    significant bits and `|x| ≥ 1/2`. -/
theorem representable_firstRemainder (hX : Representable X) :
    Representable (X - n * toRat pio2_1) ∧ (n ≠ 0 → OnGrid (-53) (X - n * toRat pio2_1)) := by
  have hgrid : n ≠ 0 → OnGrid (-53) (X - n * toRat pio2_1) := fun hn0 =>
    (hX.onGrid_of_le (by norm_num; exact (abs_ge_of_ne_zero hn hn0).1)).sub
      ((onGrid_mul_pio2_1 n).mono (by norm_num))
  refine ⟨?_, hgrid⟩
  by_cases hn0 : n = 0
  · simpa [hn0] using hX
  exact representable_of_onGrid (hgrid hn0)
    ((abs_firstRemainder_lt hXb hn).trans (by norm_num)) (by norm_num) (by norm_num)

end Quotient

end Bionic.Libm.RemPio2
