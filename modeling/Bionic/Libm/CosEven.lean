import Bionic.Libm.CosReduction

/-
  `cos` is even on the arguments it handles itself.

  Nothing in the listing tests the sign of `x` except the construction of
  `copysign(1/2, x)`; evenness comes from three facts that hold together:

  * the rounding is odd (`rnd (-q) = -rnd q`, as round-to-nearest is), so every stage of the
    dataflow is odd or even in its inputs: `reduce_neg` (the reduction is odd),
    `polynomial_mirror`, `correction_mirror`, `summation_mirror` (the rest is even, once the
    entry is mirrored);
  * `N(-x) = -N(x)` (`reductionMultiple_neg`), since truncation is odd and `N` stays far from
    the 32-bit boundary where `cvttsd2si` is not;
  * the entry `-N` selects, `(32 - M) mod 64` for the `M` of `N`, is entry `M` with `C_hl` and
    `sigma` negated (`entry_neg`, from the word-by-word check `CosTable.entry_mirror`).

  `cos_neg` assembles them with the symbolic runs of both listings.  Arguments of `90112` and
  above go to `__libm_sincos_huge`, which is not part of this source, and are excluded.
-/

namespace Bionic.Libm.Cos

open Binary64 CosTable Sse

/-- The reduced argument of `-x`, `-N`: every component negated. -/
def Reduced.neg (d : Reduced) : Reduced := ⟨-d.r1, -d.r, -d.rHi, -d.negC⟩

/-- The entry `-N` selects, in terms of the entry of `N`. -/
def Entry.mirror (e : Entry) : Entry := ⟨-e.cHl, e.sHi, e.sLo, -e.sigma⟩

/-! ## Parity of the stages -/

section

variable {rnd : ℚ → ℚ}

theorem summation_mirror (e : Entry) (d : Reduced) :
    summation rnd e.mirror d.neg = summation rnd e d := by
  simp only [summation, Reduced.neg, Entry.mirror, mul_neg, neg_mul, neg_neg]

variable (hodd : ∀ q, rnd (-q) = -rnd q)
include hodd

theorem rnd_neg_sub_neg (a b : ℚ) : rnd (-a - -b) = -rnd (a - b) := by
  rw [← hodd]; ring_nf

theorem rnd_neg_add_neg (a b : ℚ) : rnd (-a + -b) = -rnd (a + b) := by
  rw [← hodd]; ring_nf

theorem reduce_neg (k : Consts) (x n : ℚ) : reduce rnd k (-x) (-n) = (reduce rnd k x n).neg := by
  simp only [reduce, Reduced.neg, mul_neg, neg_mul, hodd, rnd_neg_sub_neg hodd]

theorem polynomial_mirror (k : Consts) (e : Entry) (d : Reduced) :
    polynomial rnd k e.mirror d.neg = polynomial rnd k e d := by
  simp only [polynomial, Reduced.neg, Entry.mirror, mul_neg, neg_mul, neg_neg, hodd,
    rnd_neg_add_neg hodd]

theorem correction_mirror (e : Entry) (d : Reduced) :
    correction rnd e.mirror d.neg = correction rnd e d := by
  simp only [correction, Reduced.neg, Entry.mirror, mul_neg, neg_mul, neg_neg, hodd,
    rnd_neg_add_neg hodd, rnd_neg_sub_neg hodd]

theorem evaluate_mirror (k : Consts) (e : Entry) (x n : ℚ) :
    evaluate rnd k e.mirror (-x) (-n) = evaluate rnd k e x n := by
  simp only [evaluate, reduce_neg hodd, polynomial_mirror hodd, correction_mirror hodd,
    summation_mirror]

end

/-! ## `N`, the entry, and the main path under negation -/

/-- The index `-N` selects: `(32 - M) mod 64`, written `(96 - M) % 64` in `ℕ`. -/
theorem entryIndex_neg (n : BitVec 32) :
    ((-n + 1865232) &&& 63).toNat = (96 - ((n + 1865232) &&& 63).toNat) % 64 := by
  simp only [BitVec.toNat_and, show (63 : BitVec 32).toNat = 2 ^ 6 - 1 from rfl,
    Nat.and_pow_two_sub_one_eq_mod, BitVec.toNat_add, BitVec.toNat_neg,
    show (1865232 : BitVec 32).toNat = 1865232 from rfl]
  have := n.isLt
  omega

theorem entry_neg (n : BitVec 32) :
    Entry.ofMem double (entryOffset (-n)).toNat =
      (Entry.ofMem double (entryOffset n).toNat).mirror := by
  have hM := entryIndex_lt n
  rw [entryOffset_toNat, entryOffset_toNat, entryIndex_neg]
  simp only [Entry.ofMem, Entry.mirror, mirror_cHl hM, mirror_sHi hM, mirror_sLo hM,
    mirror_sigma hM]

theorem toInt_neg_of_abs_le {n : BitVec 32} (h : |n.toInt| ≤ 917874) : (-n).toInt = -n.toInt := by
  rw [abs_le] at h
  rw [BitVec.toInt_neg, Int.bmod_def]
  push_cast
  split <;> omega

section

variable {rnd : ℚ → ℚ} (hr : RelErr rnd) (hodd : ∀ q, rnd (-q) = -rnd q) {x : BitVec 64}
  (hx : |toRat x| < 90112)
include hr hodd hx

theorem reductionMultiple_neg :
    reductionMultiple rnd double (neg x) = -reductionMultiple rnd double x := by
  have hh : toRat (double 2240 ||| double 2224 &&& neg x) =
      -toRat (double 2240 ||| double 2224 &&& x) := by
    rw [copysignHalf, copysignHalf, msb_neg]; cases x.msb <;> simp
  rw [reductionMultiple, reductionMultiple, toRat_neg, mul_neg, hodd, hh, rnd_neg_add_neg hodd,
    cvttsd2si_neg ((abs_reductionArg_lt hr hx).trans (by norm_num))]

theorem mainValue_neg : mainValue rnd double (neg x) = mainValue rnd double x := by
  simp only [mainValue]
  rw [reductionMultiple_neg hr hodd hx, entry_neg,
    toInt_neg_of_abs_le (abs_reductionMultiple_le hr hx), toRat_neg, Int.cast_neg,
    evaluate_mirror hodd]

end

/-- `cos (-x) = cos x` for every `|x| < 90112` (such a word is finite), under any odd rounding
    with relative error at most `2^-53`: the dispatcher sends both to the same branch, and
    each branch is even. -/
theorem cos_neg {rnd : ℚ → ℚ} (hr : RelErr rnd) (hodd : ∀ q, rnd (-q) = -rnd q)
    (sincosHuge : BitVec 64 → ℚ) {x : BitVec 64} (hx : |toRat x| < 90112) :
    cos rnd sincosHuge (neg x) = cos rnd sincosHuge x := by
  have hnh : classify x ≠ .huge := fun h => absurd hx (not_lt.2 ((classify_eq_huge_iff x).1 h).2)
  unfold cos
  rw [classify_neg]
  cases h : classify x
  · -- main
    simp only [mainPath, mainListing_run, mainValue_neg hr hodd hx]
  · -- tiny
    simp only [tinyPath, tinyListing_run, toRat_neg, abs_neg]
  · exact absurd h hnh
  · rfl

/-- The hypotheses are met by exact arithmetic, at `1.0`. -/
theorem cos_neg_at_one :
    RelErr id ∧ (∀ q : ℚ, id (-q) = -id q) ∧ |toRat (double 2192)| < 90112 ∧
      cos id (fun _ => 0) (neg (double 2192)) = cos id (fun _ => 0) (double 2192) :=
  have hx : |toRat (double 2192)| < 90112 := (lt_highBound_iff _).2 (by decide)
  ⟨relErr_id, fun _ => rfl, hx, cos_neg relErr_id (fun _ => rfl) (fun _ => 0) hx⟩

end Bionic.Libm.Cos
