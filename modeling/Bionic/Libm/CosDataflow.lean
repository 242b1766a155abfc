import Bionic.Libm.Cos

/-
  The dataflow of the main path of `cos`, stage by stage, and the theorem that the listing
  computes it.

  The header comment of `s_cos.S` describes the algorithm in six steps; the listing
  interleaves them over eight registers.  Here each step is a function on rationals, written
  with the header's names and with the operations in the order and operand order of the
  instructions that compute them, every one rounded by `rnd`:

  * `reductionMultiple` — `N = cvttsd2si (32/π · x + copysign(1/2, x))`;
  * `entryOffset` — the byte offset of the table entry, `((N + 1865232) & 63) << 5`;
  * `reduce` — step 1: `r_1`, `r` (twice: the cosine lane subtracts the second copy of `P_2`)
    and `-c = m_3 - c_2`;
  * `polynomial` — step 3, the two lanes of `pols`;
  * `correction` — step 4, `corr = -c · -d + S_lo`;
  * `summation` — step 5, the compensated summations of `hi` and `med`;
  * `evaluate` — all of them, and step 6, the final summation.

  `mainListing_run` is the bridge: running `mainListing` from any argument leaves
  `mainValue` in the low lane of `%xmm4`, for every rounding and every table.  The results
  about `cos` (its exact value, its evenness) are proved about `mainValue` and never look at
  the registers again.  `tinyListing_run` does the same for the small-argument branch.
-/

namespace Bionic.Libm.Cos

open Binary64 CosTable Sse

/-! ## The stages -/

/-- The doubles the main path reads at fixed offsets of the table: `32/π`, the three parts of
    `π/32` (`P_2` is stored twice, one copy per lane), and the coefficient pairs `SC_1..SC_4`
    (sine lane `s_i`, cosine lane `c_i`). -/
structure Consts where
  k : ℚ
  p1 : ℚ
  p2 : ℚ
  p2Hi : ℚ
  p3 : ℚ
  s1 : ℚ
  c1 : ℚ
  s2 : ℚ
  c2 : ℚ
  s3 : ℚ
  c3 : ℚ
  s4 : ℚ
  c4 : ℚ

/-- The constants as the listing loads them from `mem`. -/
def Consts.ofMem (mem : Nat → BitVec 64) : Consts where
  k := toRat (mem 2160)
  p1 := toRat (mem 2128)
  p2 := toRat (mem 2112)
  p2Hi := toRat (mem 2120)
  p3 := toRat (mem 2144)
  s1 := toRat (mem 2048)
  c1 := toRat (mem 2056)
  s2 := toRat (mem 2064)
  c2 := toRat (mem 2072)
  s3 := toRat (mem 2080)
  c3 := toRat (mem 2088)
  s4 := toRat (mem 2096)
  c4 := toRat (mem 2104)

/-- A table entry: `C_hl`, `S_hi`, `S_lo` and `sigma`. -/
structure Entry where
  cHl : ℚ
  sHi : ℚ
  sLo : ℚ
  sigma : ℚ

/-- The entry at byte offset `o`. -/
def Entry.ofMem (mem : Nat → BitVec 64) (o : Nat) : Entry :=
  ⟨toRat (mem o), toRat (mem (o + 8)), toRat (mem (o + 16)), toRat (mem (o + 24))⟩

/-- `N`: `mulsd` by `32/π`, `addpd` of `copysign(1/2, x)` (built by `andpd` with the sign mask
    at 2224 and `orps` with `1/2` at 2240), `cvttsd2si`. -/
def reductionMultiple (rnd : ℚ → ℚ) (mem : Nat → BitVec 64) (x : BitVec 64) : BitVec 32 :=
  cvttsd2si (rnd (rnd (toRat (mem 2160) * toRat x) + toRat (mem 2240 ||| mem 2224 &&& x)))

/-- The table offset `addl $1865232`, `andl $63`, `shll $5` compute from `N`. -/
def entryOffset (n : BitVec 32) : BitVec 32 := ((n + 1865232) &&& 63) <<< 5

/-- The reduced argument: `r_1 = x - m_1`, `r = r_1 - m_2` in the sine lane and `rHi` in the
    cosine lane, and `-c = m_3 - c_2`. -/
structure Reduced where
  r1 : ℚ
  r : ℚ
  rHi : ℚ
  negC : ℚ

/-- Step 1, the reduction, for `x` and `n = N`. -/
def reduce (rnd : ℚ → ℚ) (k : Consts) (x n : ℚ) : Reduced :=
  let r1 := rnd (x - rnd (k.p1 * n))
  let m2 := rnd (k.p2 * n)
  let r := rnd (r1 - m2)
  let c2 := rnd (rnd (r1 - r) - m2)
  ⟨r1, r, rnd (r1 - rnd (k.p2Hi * n)), rnd (rnd (n * k.p3) - c2)⟩

/-- Step 3: `sincospols = SC_1 + SC_2 r² + r⁴ (SC_3 + SC_4 r_1 r)` lane by lane, times
    `<(C_hl + sigma) r³ | S_hi r²>`.  The sine lane is the first component. -/
def polynomial (rnd : ℚ → ℚ) (k : Consts) (e : Entry) (d : Reduced) : ℚ × ℚ :=
  let r2 := rnd (d.r * d.r)
  let r2Hi := rnd (d.rHi * d.rHi)
  let msc4 := rnd (rnd (k.s4 * d.r1) * d.r)
  let msc4Hi := rnd (rnd (k.c4 * d.r1) * d.rHi)
  let psc3 := rnd (msc4 + k.s3)
  let psc3Hi := rnd (msc4Hi + k.c3)
  let psc1 := rnd (rnd (k.s2 * r2) + k.s1)
  let psc1Hi := rnd (rnd (k.c2 * r2Hi) + k.c1)
  let sincospols := rnd (psc1 + rnd (psc3 * rnd (r2 * r2)))
  let sincospolsHi := rnd (psc1Hi + rnd (psc3Hi * rnd (r2Hi * r2Hi)))
  (rnd (sincospols * rnd (rnd (rnd (e.cHl + e.sigma) * d.r) * r2)),
    rnd (sincospolsHi * rnd (e.sHi * r2Hi)))

/-- Step 4: `-d = S_hi r - (C_hl + sigma)` and `corr = -c · -d + S_lo`. -/
def correction (rnd : ℚ → ℚ) (e : Entry) (d : Reduced) : ℚ :=
  rnd (rnd (d.negC * rnd (rnd (e.sHi * d.r) - rnd (e.cHl + e.sigma))) + e.sLo)

/-- Step 5, the two compensated summations: `res_hi = (S_hi + sigma r) + C_hl r` and the
    compensation terms `k_2`, `k_3` that recover what their roundings lost. -/
structure Summed where
  resHi : ℚ
  k2 : ℚ
  k3 : ℚ

def summation (rnd : ℚ → ℚ) (e : Entry) (d : Reduced) : Summed :=
  let rs := rnd (e.sigma * d.r)
  let med := rnd (d.r * e.cHl)
  let resInt := rnd (rs + e.sHi)
  let resHi := rnd (med + resInt)
  ⟨resHi, rnd (rnd (e.sHi - resInt) + rs), rnd (rnd (resInt - resHi) + med)⟩

/-- Steps 1 to 6 from `x` and `n = N`; step 6 adds the small parts into `res_lo`, then
    `res_hi + res_lo`. -/
def evaluate (rnd : ℚ → ℚ) (k : Consts) (e : Entry) (x n : ℚ) : ℚ :=
  let d := reduce rnd k x n
  let s := summation rnd e d
  let pols := polynomial rnd k e d
  rnd (s.resHi + rnd (rnd (rnd (rnd (correction rnd e d + s.k2) + s.k3) + pols.1) + pols.2))

/-- The value the main path leaves in `%xmm4`. -/
def mainValue (rnd : ℚ → ℚ) (mem : Nat → BitVec 64) (x : BitVec 64) : ℚ :=
  let n := reductionMultiple rnd mem x
  evaluate rnd (Consts.ofMem mem) (Entry.ofMem mem (entryOffset n).toNat) (toRat x) n.toInt

/-! ## Table addresses -/

theorem entryIndex_lt (n : BitVec 32) : ((n + 1865232) &&& 63).toNat < 64 := by
  rw [BitVec.toNat_and]; exact Nat.and_lt_two_pow _ (show (63 : BitVec 32).toNat < 2 ^ 6 by decide)

theorem entryOffset_toNat (n : BitVec 32) :
    (entryOffset n).toNat = 32 * ((n + 1865232) &&& 63).toNat := by
  have := entryIndex_lt n
  rw [entryOffset, BitVec.toNat_shiftLeft, Nat.shiftLeft_eq, Nat.mod_eq_of_lt (by omega)]
  omega

section

variable {mem : Nat → BitVec 64} (n : BitVec 32)

/-- Every read of the entry (offsets 0, 8, 16, 24) is an aligned load inside the table. -/
theorem loadSd_entry {j : Nat} (hj : j % 8 = 0 ∧ j < 32) :
    loadSd mem (j + (entryOffset n).toNat) = some (mem ((entryOffset n).toNat + j)) := by
  have := entryIndex_lt n
  rw [Nat.add_comm]; apply loadSd_of; rw [entryOffset_toNat, tableSize]; omega

theorem loadPd_entry :
    loadPd mem (entryOffset n).toNat =
      some ⟨.bits (mem (entryOffset n).toNat), .bits (mem ((entryOffset n).toNat + 8))⟩ := by
  have := entryIndex_lt n
  apply loadPd_of; rw [entryOffset_toNat, tableSize]; omega

theorem loadSd_entry_0 : loadSd mem (entryOffset n).toNat = some (mem (entryOffset n).toNat) := by
  have := entryIndex_lt n
  apply loadSd_of; rw [entryOffset_toNat, tableSize]; omega

theorem loadSd_entry_8 : loadSd mem (8 + (entryOffset n).toNat) = some (mem ((entryOffset n).toNat + 8)) :=
  loadSd_entry n (by decide)

theorem loadSd_entry_16 :
    loadSd mem (16 + (entryOffset n).toNat) = some (mem ((entryOffset n).toNat + 16)) :=
  loadSd_entry n (by decide)

theorem loadSd_entry_24 :
    loadSd mem (24 + (entryOffset n).toNat) = some (mem ((entryOffset n).toNat + 24)) :=
  loadSd_entry n (by decide)

theorem entryOffset_fold : ((n + 1865232#32) &&& 63#32) <<< 5 = entryOffset n := rfl

end

/-! ## The listing computes the dataflow -/

/-- The main path computes `mainValue`, for every rounding, table and argument: the 69
    instructions stepped one by one. -/
theorem mainListing_run (rnd : ℚ → ℚ) (mem : Nat → BitVec 64) (x : BitVec 64) :
    (run rnd mem mainListing (start x)).map (fun m => m.xmm4.lo.val) = some (mainValue rnd mem x) := by
  simp only [mainListing, start, mainValue, reductionMultiple]
  iterate 69 (rewrite [run_cons]; simp only [exec_movsd_mem, exec_movsd_reg, exec_movapd,
    exec_addsd, exec_subsd, exec_mulsd, exec_addpd, exec_subpd, exec_mulpd, exec_andpd, exec_orps,
    exec_unpcklpd, exec_unpckhpd, exec_cvttsd2si, exec_cvtsi2sdl, exec_addl, exec_andl, exec_shll,
    exec_lea, scalar, packed, srcSd, srcPd, bitwise, Mach.getX, Mach.setX, Mach.getG, Mach.setG,
    Mach.ea, Option.map_some', some_bind_run, gsrc, Lane.word?_bits, Lane.val_bits, Lane.val_num,
    Arith.eval, loadSd_of, loadPd_of, tableSize, and_self, BitVec.ofNat_eq_ofNat,
    BitVec.toNat_ofNat, Nat.zero_mod, Nat.zero_add, Nat.reduceAdd, Nat.reduceMod, Nat.reducePow,
    Nat.reduceLeDiff, entryOffset_fold, BitVec.zero_add, loadSd_entry_0, loadSd_entry_8,
    loadSd_entry_16, loadSd_entry_24, loadPd_entry])
  rfl

/-- On the main path `cos` returns `mainValue`. -/
theorem cos_of_main {rnd : ℚ → ℚ} (sincosHuge : BitVec 64 → ℚ) {x : BitVec 64}
    (h : classify x = .main) : cos rnd sincosHuge x = some (mainValue rnd double x) := by
  unfold cos
  rewrite [h]
  exact mainListing_run rnd double x

/-! ## The small-argument branch -/

theorem getLsbD_65535 : ∀ j < 64, (65535 : BitVec 64).getLsbD j = decide (j < 16) := by decide

theorem getLsbD_32767 : ∀ j < 64, (32767#32).getLsbD j = decide (j < 15) := by decide

/-- `pextrw $3`, `andl $32767`, `pinsrw $3` clear the sign bit and keep the other 63. -/
theorem insertWord_clearSign (x : BitVec 64) :
    insertWord x 3 (((x >>> 48).setWidth 16).setWidth 32 &&& 32767#32) = x &&& ~~~signMask := by
  ext i
  simp only [insertWord, BitVec.getLsbD_or, BitVec.getLsbD_and, BitVec.getLsbD_not,
    BitVec.getLsbD_shiftLeft, BitVec.getLsbD_setWidth, BitVec.getLsbD_ushiftRight, getLsbD_signMask]
  have hi := i.isLt
  rw [getLsbD_65535 _ (by omega), getLsbD_32767 _ (by omega)]
  rcases Nat.lt_or_ge (i : Nat) 48 with h | h
  · -- the low 48 bits are kept
    simp [h, show (i : Nat) ≠ 63 by omega]
  · -- the top word is replaced by itself with bit 15 cleared
    rw [show 48 + ((i : Nat) - 16 * 3) = i by omega]
    by_cases h63 : (i : Nat) = 63
    · simp [h63]
    · simp [show ¬(i : Nat) < 48 by omega, show (i : Nat) - 48 < 15 by omega,
        show (i : Nat) - 48 < 16 by omega, show (i : Nat) - 48 < 32 by omega,
        show (i : Nat) - 48 < 64 by omega, h63]

/-- The small-argument branch computes `1.0 - |x|` (the double at 2192 less `|x|`), rounded. -/
theorem tinyListing_run (rnd : ℚ → ℚ) (mem : Nat → BitVec 64) (x : BitVec 64) :
    (run rnd mem tinyListing (start x)).map (fun m => m.xmm1.lo.val) =
      some (rnd (toRat (mem 2192) - |toRat x|)) := by
  simp only [tinyListing, start]
  iterate 5 (rewrite [run_cons]; simp only [exec_movsd_mem, exec_subsd, exec_pextrw, exec_pinsrw,
    exec_andl, scalar, srcSd, Mach.getX, Mach.setX, Mach.getG, Mach.setG, Mach.ea,
    Option.map_some', some_bind_run, gsrc, Lane.word?_bits, Lane.val_bits, Lane.val_num,
    Arith.eval, loadSd_of, tableSize, and_self, BitVec.ofNat_eq_ofNat, BitVec.toNat_ofNat,
    Nat.zero_mod, Nat.zero_add, Nat.reduceAdd, Nat.reduceMod, Nat.reducePow, Nat.reduceLeDiff,
    extractWord, Nat.reduceMul, Nat.reduceLT, if_true])
  rw [run_nil, Option.map_some', insertWord_clearSign, toRat_clearSign]
  rfl

/-- On the small-argument branch `cos` returns `1.0 - |x|`, rounded. -/
theorem cos_of_tiny {rnd : ℚ → ℚ} (sincosHuge : BitVec 64 → ℚ) {x : BitVec 64}
    (h : classify x = .tiny) :
    cos rnd sincosHuge x = some (rnd (toRat (double 2192) - |toRat x|)) := by
  unfold cos
  rewrite [h]
  exact tinyListing_run rnd double x

end Bionic.Libm.Cos
