import Bionic.Libm.CosReduction

/-
  The main path of `cos` in exact arithmetic is the formula of the header comment.

  With every double operation exact (`rnd = id`), the ~70 scheduled instructions of the main
  path compute `hi + med + pols + corr`, the four parts into which the header comment
  splits `sin(B + r + c)` for `B = N·π/32 + π/2`:

      hi   = S_hi + sigma · r
      med  = C_hl · r
      pols = S_hi r² (c_1 + c_2 r² + r⁴ (c_3 + c_4 r_1 r))
             + (C_hl + sigma) r³ (s_1 + s_2 r² + r⁴ (s_3 + s_4 r_1 r))
      corr = S_lo + c ((C_hl + sigma) - S_hi · r),   c = -N · P_3.

  `headerFormula` is that formula, written from the comment and not from the code;
  `evaluate_exact` says the dataflow computes it for any constants and any entry, as long as
  the two lanes of `P_2` agree, and `cos_exact` instantiates it with the table.  The
  compensation terms `k_2` and `k_3`, which recover the rounding errors of the two
  summations, vanish when nothing is rounded (`summation_exact`).
-/

namespace Bionic.Libm.Cos

open Binary64 CosTable Sse

/-! ## The header comment's formula -/

/-- `hi + med + pols + corr` for the constants `k`, the entry `e`, the argument `x` and the
    multiple `n` of `π/32`. -/
def headerFormula (k : Consts) (e : Entry) (x n : ℚ) : ℚ :=
  let r1 := x - n * k.p1
  let r := r1 - n * k.p2
  let c := -(n * k.p3)
  let hi := e.sHi + e.sigma * r
  let med := e.cHl * r
  let pols := e.sHi * r ^ 2 * (k.c1 + k.c2 * r ^ 2 + r ^ 4 * (k.c3 + k.c4 * r1 * r)) +
    (e.cHl + e.sigma) * r ^ 3 * (k.s1 + k.s2 * r ^ 2 + r ^ 4 * (k.s3 + k.s4 * r1 * r))
  let corr := e.sLo + c * ((e.cHl + e.sigma) - e.sHi * r)
  hi + med + pols + corr

/-- The header's `N`: `x · 32/π + copysign(1/2, x)`, truncated. -/
def headerN (x : BitVec 64) : ℤ :=
  truncate (toRat x * toRat (double 2160) + if x.msb then -(1 / 2) else 1 / 2)

/-- The header's table entry for `N`: index `(N + 16) mod 64`. -/
def headerEntry (n : ℤ) : Entry := Entry.ofMem double (32 * ((n + 16) % 64)).toNat

/-- The header's value for the argument `x`. -/
def headerValue (x : BitVec 64) : ℚ :=
  headerFormula (Consts.ofMem double) (headerEntry (headerN x)) (toRat x) (headerN x)

/-! ## The dataflow in exact arithmetic -/

/-- Without rounding, the compensation terms are zero. -/
theorem summation_exact (e : Entry) (d : Reduced) :
    (summation id e d).k2 = 0 ∧ (summation id e d).k3 = 0 := by
  simp only [summation, id]
  constructor <;> ring

theorem evaluate_exact {k : Consts} (hk : k.p2Hi = k.p2) (e : Entry) (x n : ℚ) :
    evaluate id k e x n = headerFormula k e x n := by
  simp only [evaluate, reduce, polynomial, correction, summation, headerFormula, hk, id]
  ring

/-- The two lanes of `P_2` are the same double. -/
theorem p2Hi_eq : (Consts.ofMem double).p2Hi = (Consts.ofMem double).p2 := by
  simp only [Consts.ofMem, show double 2120 = double 2112 by decide]

/-! ## `N` and the entry -/

section

variable {x : BitVec 64} (hx : |toRat x| < 90112)
include hx

/-- With exact arithmetic the code's `N` is the header's. -/
theorem reductionMultiple_exact : (reductionMultiple id double x).toInt = headerN x := by
  have hs := abs_reductionArg_lt relErr_id hx
  rw [reductionMultiple, toInt_cvttsd2si (hs.trans (by norm_num)), headerN, copysignHalf,
    mul_comm]
  rfl

theorem entryOffset_exact :
    (entryOffset (reductionMultiple id double x)).toNat = (32 * ((headerN x + 16) % 64)).toNat := by
  rewrite [← reductionMultiple_exact hx, ← entryOffset_eq]
  exact (Int.toNat_natCast _).symm

theorem mainValue_exact : mainValue id double x = headerValue x := by
  simp only [mainValue]
  rewrite [entryOffset_exact hx, reductionMultiple_exact hx, evaluate_exact p2Hi_eq]
  rfl

end

/-- For every `2^-252 ≤ |x| < 90112`, `cos` in exact arithmetic returns the header's
    `hi + med + pols + corr`, and the compensation terms `k_2`, `k_3` it adds are zero. -/
theorem cos_exact (sincosHuge : BitVec 64 → ℚ) {x : BitVec 64}
    (hlo : (2 : ℚ) ^ (-252 : ℤ) ≤ |toRat x|) (hhi : |toRat x| < 90112) :
    let n := reductionMultiple id double x
    let s := summation id (Entry.ofMem double (entryOffset n).toNat)
      (reduce id (Consts.ofMem double) (toRat x) n.toInt)
    cos id sincosHuge x = some (headerValue x) ∧ s.k2 = 0 ∧ s.k3 = 0 :=
  ⟨(cos_of_main sincosHuge ((classify_eq_main_iff x).2 ⟨hlo, hhi⟩)).trans
    (congrArg some (mainValue_exact hhi)), summation_exact _ _⟩

/-- `1.0` is in range. -/
theorem cos_exact_at_one :
    (2 : ℚ) ^ (-252 : ℤ) ≤ |toRat (double 2192)| ∧ |toRat (double 2192)| < 90112 ∧
      (let n := reductionMultiple id double (double 2192)
      let s := summation id (Entry.ofMem double (entryOffset n).toNat)
        (reduce id (Consts.ofMem double) (toRat (double 2192)) n.toInt)
      cos id (fun _ => 0) (double 2192) = some (headerValue (double 2192)) ∧ s.k2 = 0 ∧
        s.k3 = 0) :=
  have hlo : (2 : ℚ) ^ (-252 : ℤ) ≤ |toRat (double 2192)| := (lowBound_le_iff _).2 (by decide)
  have hhi : |toRat (double 2192)| < 90112 := (lt_highBound_iff _).2 (by decide)
  ⟨hlo, hhi, cos_exact (fun _ => 0) hlo hhi⟩

end Bionic.Libm.Cos
