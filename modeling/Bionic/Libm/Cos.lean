import Bionic.Libm.Sse

/-
  `cos` of `s_cos.S` (32-bit x86), as the listing runs it.

  * `classify` — the dispatcher at the entry: the top 16 bits of the argument, masked with
    `0x7FFF`, less `12336`, compared with `4293` unsigned (`ja`) and then signed (`jg`); past
    both, the exponent field of the high word (`andl $2146435072`) tells infinities and NaNs
    from large finite arguments.
  * `mainListing` — the table-driven path, from `movsd 2160(%ebx), %xmm1` to
    `addsd %xmm1, %xmm4`, one `Instr` per source line.  Its result is the low lane of `%xmm4`,
    which the code stores and reloads with `fldl`.
  * `tinyListing` — `.L_2TAG_PACKET_0`: clear the sign with `pextrw`/`andl`/`pinsrw` and
    subtract from `1.0`.
  * `.L_2TAG_PACKET_3` multiplies an infinity or a NaN by `-0.0` on the x87 stack, which gives
    a NaN; `cos` returns `none` there.
  * `.L_2TAG_PACKET_2` calls `__libm_sincos_huge`, which is not part of this source; it is the
    parameter `sincosHuge`.
-/

namespace Bionic.Libm.Cos

open Binary64 CosTable Sse

/-- Where the dispatcher sends an argument. -/
inductive Path
  | main | tiny | huge | nan
  deriving DecidableEq, Repr

/-- The value `subl $12336, %eax` leaves: the top 16 bits of `x`, sign cleared, less `12336`. -/
def band (x : BitVec 64) : BitVec 32 := (((x >>> 48).setWidth 16).setWidth 32 &&& 32767) - 12336

/-- The dispatcher of `cos`. -/
def classify (x : BitVec 64) : Path :=
  if BitVec.ult 4293 (band x) then
    if BitVec.slt 4293 (band x) then
      if (x >>> 32).setWidth 32 &&& 2146435072 = 2146435072 then .nan else .huge
    else .tiny
  else .main

/-- The machine on entry to either listing: `%xmm0` holds the argument (`movsd 128(%esp)`
    clears the high lane) and `%ebx` the address of `static_const_table`.  The listings write
    every other register before reading it; those start as zero words. -/
def start (x : BitVec 64) : Mach :=
  { xmm0 := ⟨.bits x, .bits 0⟩, xmm1 := ⟨.bits 0, .bits 0⟩, xmm2 := ⟨.bits 0, .bits 0⟩,
    xmm3 := ⟨.bits 0, .bits 0⟩, xmm4 := ⟨.bits 0, .bits 0⟩, xmm5 := ⟨.bits 0, .bits 0⟩,
    xmm6 := ⟨.bits 0, .bits 0⟩, xmm7 := ⟨.bits 0, .bits 0⟩, eax := 0, ebx := 0, edx := 0 }

/-- The main path, from `movsd 2160(%ebx), %xmm1` to `addsd %xmm1, %xmm4`. -/
def mainListing : List Instr :=
  open Instr Opnd XReg GReg GOpnd in [
  movsd (mem 2160 ebx) xmm1,
  mulsd (reg xmm0) xmm1,
  movapd (mem 2240 ebx) xmm5,
  movsd (mem 2224 ebx) xmm4,
  andpd xmm0 xmm4,
  orps xmm4 xmm5,
  movsd (mem 2128 ebx) xmm3,
  movapd (mem 2112 ebx) xmm2,
  addpd (reg xmm5) xmm1,
  cvttsd2si xmm1 edx,
  cvtsi2sdl edx xmm1,
  mulsd (reg xmm1) xmm3,
  unpcklpd xmm1 xmm1,
  addl (imm 1865232) edx,
  movapd (reg xmm0) xmm4,
  andl (imm 63) edx,
  movapd (mem 2096 ebx) xmm5,
  lea ebx eax,
  shll 5 edx,
  addl (reg edx) eax,
  mulpd (reg xmm1) xmm2,
  subsd (reg xmm3) xmm0,
  mulsd (mem 2144 ebx) xmm1,
  subsd (reg xmm3) xmm4,
  movsd (mem 8 eax) xmm7,
  unpcklpd xmm0 xmm0,
  movapd (reg xmm4) xmm3,
  subsd (reg xmm2) xmm4,
  mulpd (reg xmm0) xmm5,
  subpd (reg xmm2) xmm0,
  movapd (mem 2064 ebx) xmm6,
  mulsd (reg xmm4) xmm7,
  subsd (reg xmm4) xmm3,
  mulpd (reg xmm0) xmm5,
  mulpd (reg xmm0) xmm0,
  subsd (reg xmm2) xmm3,
  movapd (mem 0 eax) xmm2,
  subsd (reg xmm3) xmm1,
  movsd (mem 24 eax) xmm3,
  addsd (reg xmm3) xmm2,
  subsd (reg xmm2) xmm7,
  mulsd (reg xmm4) xmm2,
  mulpd (reg xmm0) xmm6,
  mulsd (reg xmm4) xmm3,
  mulpd (reg xmm0) xmm2,
  mulpd (reg xmm0) xmm0,
  addpd (mem 2080 ebx) xmm5,
  mulsd (mem 0 eax) xmm4,
  addpd (mem 2048 ebx) xmm6,
  mulpd (reg xmm0) xmm5,
  movapd (reg xmm3) xmm0,
  addsd (mem 8 eax) xmm3,
  mulpd (reg xmm7) xmm1,
  movapd (reg xmm4) xmm7,
  addsd (reg xmm3) xmm4,
  addpd (reg xmm5) xmm6,
  movsd (mem 8 eax) xmm5,
  subsd (reg xmm3) xmm5,
  subsd (reg xmm4) xmm3,
  addsd (mem 16 eax) xmm1,
  mulpd (reg xmm2) xmm6,
  addsd (reg xmm0) xmm5,
  addsd (reg xmm7) xmm3,
  addsd (reg xmm5) xmm1,
  addsd (reg xmm3) xmm1,
  addsd (reg xmm6) xmm1,
  unpckhpd xmm6 xmm6,
  addsd (reg xmm6) xmm1,
  addsd (reg xmm1) xmm4]

/-- `.L_2TAG_PACKET_0`, the branch for `|x| < 2^-252`: `1.0 - |x|`, left in `%xmm1`. -/
def tinyListing : List Instr :=
  open Instr Opnd XReg GReg GOpnd in [
  pextrw 3 xmm0 eax,
  andl (imm 32767) eax,
  pinsrw 3 eax xmm0,
  movsd (mem 2192 ebx) xmm1,
  subsd (reg xmm0) xmm1]

/-- The main path's result: the low lane of `%xmm4`. -/
def mainPath (rnd : ℚ → ℚ) (x : BitVec 64) : Option ℚ :=
  (run rnd double mainListing (start x)).map fun m => m.xmm4.lo.val

/-- The tiny branch's result: the low lane of `%xmm1`. -/
def tinyPath (rnd : ℚ → ℚ) (x : BitVec 64) : Option ℚ :=
  (run rnd double tinyListing (start x)).map fun m => m.xmm1.lo.val

/-- `cos`: every double operation rounded by `rnd`, the large-argument reduction
    `__libm_sincos_huge` given as `sincosHuge`; `none` is a NaN result. -/
def cos (rnd : ℚ → ℚ) (sincosHuge : BitVec 64 → ℚ) (x : BitVec 64) : Option ℚ :=
  match classify x with
  | .main => mainPath rnd x
  | .tiny => tinyPath rnd x
  | .huge => some (sincosHuge x)
  | .nan => none

end Bionic.Libm.Cos
