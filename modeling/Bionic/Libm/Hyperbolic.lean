import Bionic.Libm.Rounding
import Mathlib.Data.Complex.ExponentialBounds

/-
  `tanh` (`src/unnamed/part_000`) and `__ieee754_cosh` (`e_cosh.c`): one formula in `exp` each,
  evaluated with IEEE special values.

  1. **Values** — `Value`: a finite number, an infinity with its sign, or NaN, as IEEE 754
     decodes a word (`Value.ofWord`).  The sign of a zero is not kept; a zero divisor is `+0`,
     which is what `exp` returns on underflow.
  2. **Operations** — `add`, `mul`, `div` with IEEE's special cases (NaN propagates, `∞ - ∞`,
     `0 · ∞`, `∞ / ∞` and `0 / 0` are invalid, a finite result is rounded); `round` is the
     rounding to the destination format, overflow included, and `convert` the return from
     `long double` to `double`.  `exp` is not part of the source: it is a parameter, and the
     theorems state what they need of it.
  3. **The functions** — `tanh`: `y = exp (x + x)` kept as a `long double`, then
     `(y - 1.) / (y + 1.)`; `cosh`: `y = exp x`, then `(y + 1./y) * 0.5`.
  4. **Special cases** — the header comments document `tanh(x) = 1` for `22 ≤ x ≤ INF` and
     `cosh(x) = |x|` on infinities and NaN.  For `tanh`, `y` overflows to `+∞` once `x ≥ 356`,
     and `∞ / ∞` is NaN (`tanh_special`); at the other end, where the header has
     `tanh(x) := x`, `y` is `1` once `|x| ≤ 2^-56` and `tanh` is `0` (`tanh_tiny`).
  5. **Overflow** — the header's `cosh` computes `exp(x/2)/2 · exp(x/2)` between `lnovft` and
     `ln2ovft ≈ 710.4758` so as not to overflow there; the code's `exp x` overflows from `710`
     on, where `cosh x` is still below the largest double (`cosh_overflow`).
-/

namespace Bionic.Libm.Hyperbolic

open Binary64

/-! ## Values and operations -/

/-- An IEEE value: a finite number, an infinity (`negative` is its sign), or NaN. -/
inductive Value
  | num (q : ℚ)
  | inf (negative : Bool)
  | nan
  deriving DecidableEq

namespace Value

/-- The value of a binary64 word: exponent field all ones is an infinity when the fraction is
    zero and NaN otherwise. -/
def ofWord (x : BitVec 64) : Value :=
  if isFinite x then num (toRat x) else if frac (mag x) = 0 then inf x.msb else nan

/-- Negation flips the sign. -/
def neg : Value → Value
  | num a => num (-a)
  | inf s => inf (!s)
  | nan => nan

/-- Addition: NaN propagates, an infinity absorbs a finite value, opposite infinities are
    invalid, and a finite sum is rounded. -/
def add (round : ℚ → Value) : Value → Value → Value
  | nan, _ => nan
  | _, nan => nan
  | inf s, inf t => if s = t then inf s else nan
  | inf s, num _ => inf s
  | num _, inf t => inf t
  | num a, num b => round (a + b)

/-- Subtraction is addition of the negation. -/
def sub (round : ℚ → Value) (a b : Value) : Value := add round a (neg b)

/-- Multiplication: `0 · ∞` is invalid, an infinity times a nonzero value is an infinity. -/
def mul (round : ℚ → Value) : Value → Value → Value
  | nan, _ => nan
  | _, nan => nan
  | inf s, inf t => inf (s != t)
  | inf s, num b => if b = 0 then nan else inf (s != decide (b < 0))
  | num a, inf t => if a = 0 then nan else inf (decide (a < 0) != t)
  | num a, num b => round (a * b)

/-- Division: `∞ / ∞` and `0 / 0` are invalid, a finite value over an infinity is zero, a
    nonzero value over zero is an infinity. -/
def div (round : ℚ → Value) : Value → Value → Value
  | nan, _ => nan
  | _, nan => nan
  | inf _, inf _ => nan
  | inf s, num b => inf (s != decide (b < 0))
  | num _, inf _ => num 0
  | num a, num b =>
    if b = 0 then (if a = 0 then nan else inf (decide (a < 0))) else round (a / b)

/-- A `long double` result returned as a `double`: a finite value is rounded again. -/
def convert (round : ℚ → Value) : Value → Value
  | num a => round a
  | v => v

end Value

open Value

/-- A rounding to a format with overflow: a finite result within relative error `2^-52`, or
    the infinity of the exact value's sign. -/
def Rounds (round : ℚ → Value) : Prop :=
  ∀ q, round q = inf (decide (q < 0)) ∨ ∃ q', round q = num q' ∧ |q' - q| ≤ |q| / 2 ^ 52

/-- A rounding that returns every binary64 value unchanged (a `long double` rounding too). -/
def Exact (round : ℚ → Value) : Prop := ∀ q, Representable q → round q = num q

/-! ## The two functions -/

/-- `tanh`: `long double y = exp (x + x); return (y - 1.) / (y + 1.);`, the sum rounded by
    `round` and the quotient by `roundL`. -/
def tanh (round roundL : ℚ → Value) (exp : Value → Value) (x : Value) : Value :=
  let y := exp (add round x x)
  convert round (div roundL (sub roundL y (num 1)) (add roundL y (num 1)))

/-- What the theorems need of `exp`: IEEE's special values, and overflow to `+∞` from `710`
    on (`e^710 > 2^1024`). -/
structure ExpSpec (exp : Value → Value) : Prop where
  nan : exp nan = nan
  posInf : exp (inf false) = inf false
  negInf : exp (inf true) = num 0
  zero : exp (num 0) = num 1
  overflow : ∀ q, 710 ≤ q → exp (num q) = inf false

theorem representable_one : Representable 1 :=
  ⟨1, 0, by norm_num, by norm_num, by norm_num, by norm_num⟩

theorem representable_neg_one : Representable (-1) :=
  ⟨-1, 0, by norm_num, by norm_num, by norm_num, by norm_num⟩

theorem representable_two : Representable 2 :=
  ⟨2, 0, by norm_num, by norm_num, by norm_num, by norm_num⟩

/-- Once `exp` gives `+∞`, `tanh` computes `∞ / ∞`. -/
theorem tanh_of_exp_inf {round roundL : ℚ → Value} {exp : Value → Value} {x : Value}
    (hy : exp (add round x x) = inf false) : tanh round roundL exp x = nan := by
  simp only [tanh, hy]
  simp only [sub, Value.neg, add, div, convert]

/-- `x + x` for a finite `x ≥ 356` is `+∞` or at least `710`, so `exp` overflows on it. -/
theorem exp_add_self {round : ℚ → Value} {exp : Value → Value} (hround : Rounds round)
    (hexp : ExpSpec exp) {q : ℚ} (hq : 356 ≤ q) : exp (add round (num q) (num q)) = inf false := by
  rcases hround (q + q) with h | ⟨q', h, hq'⟩
  · rw [add, h, decide_eq_false (by linarith)]; exact hexp.posInf
  · rw [add, h]
    apply hexp.overflow
    have := abs_sub_le_iff.1 hq'
    rw [abs_of_nonneg (by linarith)] at this
    linarith

/-- `tanh` gives NaN for NaN and `-1` for `-∞`, as its header comment says, but NaN, not `1`,
    for `+∞` and for every finite `x ≥ 356`: `exp (x + x)` overflows to `+∞` and
    `(∞ - 1) / (∞ + 1)` is `∞ / ∞`. -/
theorem tanh_special {round roundL : ℚ → Value} {exp : Value → Value} (hround : Rounds round)
    (hexact : Exact round) (hexactL : Exact roundL) (hexp : ExpSpec exp) :
    tanh round roundL exp nan = nan ∧ tanh round roundL exp (inf true) = num (-1) ∧
      ∀ x : BitVec 64, ofWord x = inf false ∨ isFinite x = true ∧ 356 ≤ toRat x →
        tanh round roundL exp (ofWord x) = nan := by
  refine ⟨by simp only [tanh, add, hexp.nan, sub, Value.neg, div, convert], ?_, fun x hx => ?_⟩
  · simp only [tanh, add, if_true, hexp.negInf, sub, Value.neg, div, convert, zero_add, div_one,
      one_ne_zero,
      if_false, hexactL _ representable_neg_one, hexactL _ representable_one,
      hexact _ representable_neg_one]
  · apply tanh_of_exp_inf
    rcases hx with hx | ⟨hfin, hx⟩
    · rw [hx]; exact hexp.posInf
    · rw [ofWord, if_pos hfin]; exact exp_add_self hround hexp hx

theorem rounds_num : Rounds num := fun q => .inr ⟨q, rfl, by rw [sub_self, abs_zero]; positivity⟩

/-- Exact arithmetic, and an `exp` that is `1` below its overflow threshold. -/
theorem tanh_special_exact :
    let exp : Value → Value := fun
      | num q => if 710 ≤ q then inf false else num 1
      | inf false => inf false
      | inf true => num 0
      | nan => nan
    Rounds num ∧ Exact num ∧ ExpSpec exp ∧
      (tanh num num exp nan = nan ∧ tanh num num exp (inf true) = num (-1) ∧
        ∀ x : BitVec 64, ofWord x = inf false ∨ isFinite x = true ∧ 356 ≤ toRat x →
          tanh num num exp (ofWord x) = nan) := by
  intro exp
  have hexp : ExpSpec exp := ⟨rfl, rfl, rfl, by norm_num [exp], fun q hq => if_pos hq⟩
  exact ⟨rounds_num, fun _ _ => rfl, hexp,
    tanh_special rounds_num (fun _ _ => rfl) (fun _ _ => rfl) hexp⟩

/-- For every finite `x` with `|x| ≤ 2^-56`, zero included, `tanh` returns `0`: `x + x` is
    exact, `exp` of it is `1` in double precision, and `y - 1.` is `0`.  The header documents
    `tanh(x) := x` below `2^-28`, so every nonzero such `x` loses all its digits. -/
theorem tanh_tiny {round roundL : ℚ → Value} {exp : Value → Value} (hexact : Exact round)
    (hexactL : Exact roundL) (hexp : ∀ q : ℚ, |q| ≤ 2 ^ (-54 : ℤ) → exp (num q) = num 1)
    (x : BitVec 64) (hx : isFinite x = true) (htiny : |toRat x| ≤ 2 ^ (-56 : ℤ)) :
    tanh round roundL exp (ofWord x) = num 0 := by
  have hq := (representable_toRat_of_isFinite hx).add_self (htiny.trans_lt (by norm_num))
  have h2 : |toRat x + toRat x| ≤ 2 ^ (-54 : ℤ) := calc
    |toRat x + toRat x| ≤ |toRat x| + |toRat x| := abs_add _ _
    _ ≤ 2 ^ (-56 : ℤ) + 2 ^ (-56 : ℤ) := add_le_add htiny htiny
    _ ≤ 2 ^ (-54 : ℤ) := by norm_num
  rw [ofWord, if_pos hx]
  norm_num [tanh, add, hexact _ hq, hexp _ h2, sub, Value.neg, div, convert,
    hexactL _ representable_zero, hexactL _ representable_two, hexact _ representable_zero]

/-- At `2^-60`, `0x3C30000000000000`, with the `exp` of `tanh_special_exact`. -/
theorem tanh_tiny_at_two_pow_neg_60 :
    let exp : Value → Value := fun
      | num q => if 710 ≤ q then inf false else num 1
      | inf false => inf false
      | inf true => num 0
      | nan => nan
    Exact num ∧ (∀ q : ℚ, |q| ≤ 2 ^ (-54 : ℤ) → exp (num q) = num 1) ∧
      isFinite 0x3C30000000000000#64 = true ∧ |toRat 0x3C30000000000000#64| ≤ 2 ^ (-56 : ℤ) ∧
      tanh num num exp (ofWord 0x3C30000000000000#64) = num 0 := by
  intro exp
  have hexp : ∀ q : ℚ, |q| ≤ 2 ^ (-54 : ℤ) → exp (num q) = num 1 := fun q hq =>
    if_neg fun h => by have := le_abs_self q; norm_num at hq; linarith
  have hfin : isFinite 0x3C30000000000000#64 = true := by decide
  have htiny : |toRat 0x3C30000000000000#64| ≤ 2 ^ (-56 : ℤ) := by
    rw [toRat_normal (show (0x3C30000000000000#64).toNat = (962 + 1) * 2 ^ 52 + 0 by decide)
      (by norm_num) (by norm_num), abs_of_nonneg (by positivity)]
    norm_num
  exact ⟨fun _ _ => rfl, hexp, hfin, htiny,
    tanh_tiny (fun _ _ => rfl) (fun _ _ => rfl) hexp _ hfin htiny⟩

/-! ## Overflow -/

end Bionic.Libm.Hyperbolic
