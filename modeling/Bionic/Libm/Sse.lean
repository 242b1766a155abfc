import Bionic.Libm.CosTable
import Mathlib.Data.Rat.Floor

/-
  The fragment of 32-bit x86 that `s_cos.S` executes, as a machine over rational lanes.

  Each instruction is a constructor named after its mnemonic, with its operands in AT&T order
  (`src, dst`), so that a listing in `Bionic.Libm.Cos` can be read against the source line by
  line.  The state is the eight XMM registers (two 64-bit lanes each) and the three general
  registers the listing uses.

  * A lane is either a word loaded from memory (`Lane.bits`), on which the bitwise
    instructions act, or a rational computed by arithmetic (`Lane.num`).  The bitwise
    instructions of the listing only ever see loaded words; on a computed lane the machine
    stops (`exec` returns `none`).
  * Every double addition, subtraction and multiplication is the exact rational operation
    followed by a rounding `rnd : ℚ → ℚ`, a parameter of the machine: `rnd = id` runs the
    listing in exact arithmetic, a rounding to binary64 runs it as the hardware does.
  * Memory is the constant table, addressed from its own start (`%ebx` holds its address,
    taken as 0), and given as a parameter `mem` (the double at each byte offset); `cos` runs
    with `static_const_table`.  A load outside the table, or a packed access that is not
    16-byte aligned (a fault on x86), stops the machine.  Keeping the contents abstract lets
    the symbolic execution of a listing be proved once for any table.
-/

namespace Bionic.Libm.Sse

open Binary64 CosTable

/-- One 64-bit lane of an XMM register. -/
inductive Lane
  | bits (w : BitVec 64)
  | num (q : ℚ)

namespace Lane

/-- The rational a lane holds. -/
def val : Lane → ℚ
  | bits w => toRat w
  | num q => q

/-- The word of a loaded lane; a computed rational has no word in this model. -/
def word? : Lane → Option (BitVec 64)
  | bits w => some w
  | num _ => none

@[simp] theorem val_bits (w : BitVec 64) : (bits w).val = toRat w := rfl
@[simp] theorem val_num (q : ℚ) : (num q).val = q := rfl
@[simp] theorem word?_bits (w : BitVec 64) : (bits w).word? = some w := rfl

end Lane

/-- An XMM register: low lane (the scalar lane) and high lane. -/
structure Xmm where
  lo : Lane
  hi : Lane

inductive XReg
  | xmm0 | xmm1 | xmm2 | xmm3 | xmm4 | xmm5 | xmm6 | xmm7

inductive GReg
  | eax | ebx | edx

/-- An XMM-instruction source: a register, or the memory operand `disp(%base)`. -/
inductive Opnd
  | reg (r : XReg)
  | mem (disp : Nat) (base : GReg)

/-- A general-instruction source: an immediate `$v` or a register. -/
inductive GOpnd
  | imm (v : BitVec 32)
  | reg (r : GReg)

/-- The three double operations; each is exact, then rounded. -/
inductive Arith
  | add | sub | mul

def Arith.eval : Arith → ℚ → ℚ → ℚ
  | add, a, b => a + b
  | sub, a, b => a - b
  | mul, a, b => a * b

/-- The instructions of `s_cos.S` that touch the XMM registers or feed the table address. -/
inductive Instr
  | movsd (src : Opnd) (dst : XReg)
  | movapd (src : Opnd) (dst : XReg)
  | addsd (src : Opnd) (dst : XReg)
  | subsd (src : Opnd) (dst : XReg)
  | mulsd (src : Opnd) (dst : XReg)
  | addpd (src : Opnd) (dst : XReg)
  | subpd (src : Opnd) (dst : XReg)
  | mulpd (src : Opnd) (dst : XReg)
  | andpd (src dst : XReg)
  | orps (src dst : XReg)
  | unpcklpd (src dst : XReg)
  | unpckhpd (src dst : XReg)
  | pextrw (imm : Nat) (src : XReg) (dst : GReg)
  | pinsrw (imm : Nat) (src : GReg) (dst : XReg)
  | cvttsd2si (src : XReg) (dst : GReg)
  | cvtsi2sdl (src : GReg) (dst : XReg)
  | addl (src : GOpnd) (dst : GReg)
  | andl (src : GOpnd) (dst : GReg)
  | shll (imm : Nat) (dst : GReg)
  | lea (base : GReg) (dst : GReg)

structure Mach where
  xmm0 : Xmm
  xmm1 : Xmm
  xmm2 : Xmm
  xmm3 : Xmm
  xmm4 : Xmm
  xmm5 : Xmm
  xmm6 : Xmm
  xmm7 : Xmm
  eax : BitVec 32
  ebx : BitVec 32
  edx : BitVec 32

namespace Mach

@[simp] def getX (m : Mach) : XReg → Xmm
  | .xmm0 => m.xmm0 | .xmm1 => m.xmm1 | .xmm2 => m.xmm2 | .xmm3 => m.xmm3
  | .xmm4 => m.xmm4 | .xmm5 => m.xmm5 | .xmm6 => m.xmm6 | .xmm7 => m.xmm7

@[simp] def setX (m : Mach) (v : Xmm) : XReg → Mach
  | .xmm0 => { m with xmm0 := v } | .xmm1 => { m with xmm1 := v }
  | .xmm2 => { m with xmm2 := v } | .xmm3 => { m with xmm3 := v }
  | .xmm4 => { m with xmm4 := v } | .xmm5 => { m with xmm5 := v }
  | .xmm6 => { m with xmm6 := v } | .xmm7 => { m with xmm7 := v }

@[simp] def getG (m : Mach) : GReg → BitVec 32
  | .eax => m.eax | .ebx => m.ebx | .edx => m.edx

@[simp] def setG (m : Mach) (v : BitVec 32) : GReg → Mach
  | .eax => { m with eax := v } | .ebx => { m with ebx := v } | .edx => { m with edx := v }

/-- The table offset `disp(%base)` addresses: the base register holds an offset into the table. -/
def ea (m : Mach) (disp : Nat) (base : GReg) : Nat := disp + (m.getG base).toNat

end Mach

/-- A scalar (8-byte) load at table offset `o`.  Every scalar load of the listing is 8-byte
    aligned; the model reads only such loads. -/
def loadSd (mem : Nat → BitVec 64) (o : Nat) : Option (BitVec 64) :=
  if o % 8 = 0 ∧ o + 8 ≤ tableSize then some (mem o) else none

/-- A packed (16-byte) load at table offset `o`, which x86 requires to be 16-byte aligned. -/
def loadPd (mem : Nat → BitVec 64) (o : Nat) : Option Xmm :=
  if o % 16 = 0 ∧ o + 16 ≤ tableSize then some ⟨.bits (mem o), .bits (mem (o + 8))⟩
  else none

/-- Truncation toward zero. -/
def truncate (q : ℚ) : ℤ := if 0 ≤ q then ⌊q⌋ else ⌈q⌉

/-- `cvttsd2si`: truncation toward zero; outside the 32-bit range the result is the integer
    indefinite value `0x80000000`. -/
def cvttsd2si (q : ℚ) : BitVec 32 :=
  if -2 ^ 31 ≤ truncate q ∧ truncate q < 2 ^ 31 then BitVec.ofInt 32 (truncate q)
  else 0x80000000

/-- `pextrw $imm`: word `imm` of the register's eight 16-bit words, zero-extended. -/
def extractWord (x : Xmm) (imm : Nat) : Option (BitVec 32) :=
  (if imm < 4 then x.lo else x.hi).word?.map fun w => ((w >>> (16 * (imm % 4))).setWidth 16).setWidth 32

/-- `pinsrw $imm`: word `imm` of the lane replaced by the low 16 bits of `v`. -/
def insertWord (w : BitVec 64) (imm : Nat) (v : BitVec 32) : BitVec 64 :=
  (w &&& ~~~((0xFFFF : BitVec 64) <<< (16 * imm))) ||| ((v.setWidth 16).setWidth 64 <<< (16 * imm))

section

variable (rnd : ℚ → ℚ) (mem : Nat → BitVec 64) (m : Mach)

/-- The scalar source: the low lane of a register, or a double of the table. -/
def srcSd : Opnd → Option Lane
  | .reg r => some (m.getX r).lo
  | .mem d b => (loadSd mem (m.ea d b)).map .bits

/-- The packed source: both lanes of a register, or 16 aligned bytes of the table. -/
def srcPd : Opnd → Option Xmm
  | .reg r => some (m.getX r)
  | .mem d b => loadPd mem (m.ea d b)

/-- `dst.lo ← rnd (dst.lo ∘ src)`; the high lane is kept. -/
def scalar (op : Arith) (src : Opnd) (dst : XReg) : Option Mach :=
  (srcSd mem m src).map fun s =>
    m.setX ⟨.num (rnd (op.eval (m.getX dst).lo.val s.val)), (m.getX dst).hi⟩ dst

/-- Both lanes: `dst ← rnd (dst ∘ src)` lane by lane. -/
def packed (op : Arith) (src : Opnd) (dst : XReg) : Option Mach :=
  (srcPd mem m src).map fun s =>
    m.setX ⟨.num (rnd (op.eval (m.getX dst).lo.val s.lo.val)),
      .num (rnd (op.eval (m.getX dst).hi.val s.hi.val))⟩ dst

/-- A bitwise instruction on both lanes, defined on loaded words only. -/
def bitwise (f : BitVec 64 → BitVec 64 → BitVec 64) (src dst : XReg) : Option Mach :=
  match (m.getX dst).lo.word?, (m.getX src).lo.word?, (m.getX dst).hi.word?, (m.getX src).hi.word? with
  | some dl, some sl, some dh, some sh => some (m.setX ⟨.bits (f dl sl), .bits (f dh sh)⟩ dst)
  | _, _, _, _ => none

def gsrc : GOpnd → BitVec 32
  | .imm v => v
  | .reg r => m.getG r

/-- One instruction. -/
def exec : Instr → Option Mach
  | .movsd (.mem d b) dst => (loadSd mem (m.ea d b)).map fun w => m.setX ⟨.bits w, .bits 0⟩ dst
  | .movsd (.reg r) dst => some (m.setX ⟨(m.getX r).lo, (m.getX dst).hi⟩ dst)
  | .movapd src dst => (srcPd mem m src).map fun v => m.setX v dst
  | .addsd src dst => scalar rnd mem m .add src dst
  | .subsd src dst => scalar rnd mem m .sub src dst
  | .mulsd src dst => scalar rnd mem m .mul src dst
  | .addpd src dst => packed rnd mem m .add src dst
  | .subpd src dst => packed rnd mem m .sub src dst
  | .mulpd src dst => packed rnd mem m .mul src dst
  | .andpd src dst => bitwise m (· &&& ·) src dst
  | .orps src dst => bitwise m (· ||| ·) src dst
  | .unpcklpd src dst => some (m.setX ⟨(m.getX dst).lo, (m.getX src).lo⟩ dst)
  | .unpckhpd src dst => some (m.setX ⟨(m.getX dst).hi, (m.getX src).hi⟩ dst)
  | .pextrw imm src dst => (extractWord (m.getX src) imm).map fun v => m.setG v dst
  | .pinsrw imm src dst =>
      (m.getX dst).lo.word?.map fun w =>
        m.setX ⟨.bits (insertWord w imm (m.getG src)), (m.getX dst).hi⟩ dst
  | .cvttsd2si src dst => some (m.setG (cvttsd2si (m.getX src).lo.val) dst)
  | .cvtsi2sdl src dst => some (m.setX ⟨.num (m.getG src).toInt, (m.getX dst).hi⟩ dst)
  | .addl src dst => some (m.setG (m.getG dst + gsrc m src) dst)
  | .andl src dst => some (m.setG (m.getG dst &&& gsrc m src) dst)
  | .shll imm dst => some (m.setG (m.getG dst <<< imm) dst)
  | .lea base dst => some (m.setG (m.getG base) dst)

end

/-! ## One equation per instruction, for stepping a listing -/

section

variable {rnd : ℚ → ℚ} {mem : Nat → BitVec 64} {m : Mach} {d : Nat} {b : GReg} {r dst : XReg} {src : Opnd}

@[simp] theorem exec_movsd_mem :
    exec rnd mem m (.movsd (.mem d b) dst) = (loadSd mem (m.ea d b)).map fun w => m.setX ⟨.bits w, .bits 0⟩ dst :=
  rfl
@[simp] theorem exec_movsd_reg :
    exec rnd mem m (.movsd (.reg r) dst) = some (m.setX ⟨(m.getX r).lo, (m.getX dst).hi⟩ dst) := rfl
@[simp] theorem exec_movapd : exec rnd mem m (.movapd src dst) = (srcPd mem m src).map fun v => m.setX v dst :=
  rfl
@[simp] theorem exec_addsd : exec rnd mem m (.addsd src dst) = scalar rnd mem m .add src dst := rfl
@[simp] theorem exec_subsd : exec rnd mem m (.subsd src dst) = scalar rnd mem m .sub src dst := rfl
@[simp] theorem exec_mulsd : exec rnd mem m (.mulsd src dst) = scalar rnd mem m .mul src dst := rfl
@[simp] theorem exec_addpd : exec rnd mem m (.addpd src dst) = packed rnd mem m .add src dst := rfl
@[simp] theorem exec_subpd : exec rnd mem m (.subpd src dst) = packed rnd mem m .sub src dst := rfl
@[simp] theorem exec_mulpd : exec rnd mem m (.mulpd src dst) = packed rnd mem m .mul src dst := rfl
@[simp] theorem exec_andpd : exec rnd mem m (.andpd r dst) = bitwise m (· &&& ·) r dst := rfl
@[simp] theorem exec_orps : exec rnd mem m (.orps r dst) = bitwise m (· ||| ·) r dst := rfl
@[simp] theorem exec_unpcklpd :
    exec rnd mem m (.unpcklpd r dst) = some (m.setX ⟨(m.getX dst).lo, (m.getX r).lo⟩ dst) := rfl
@[simp] theorem exec_unpckhpd :
    exec rnd mem m (.unpckhpd r dst) = some (m.setX ⟨(m.getX dst).hi, (m.getX r).hi⟩ dst) := rfl
@[simp] theorem exec_pextrw {imm : Nat} {g : GReg} :
    exec rnd mem m (.pextrw imm r g) = (extractWord (m.getX r) imm).map fun v => m.setG v g := rfl
@[simp] theorem exec_pinsrw {imm : Nat} {g : GReg} :
    exec rnd mem m (.pinsrw imm g dst) = (m.getX dst).lo.word?.map fun w =>
      m.setX ⟨.bits (insertWord w imm (m.getG g)), (m.getX dst).hi⟩ dst := rfl
@[simp] theorem exec_cvttsd2si {g : GReg} :
    exec rnd mem m (.cvttsd2si r g) = some (m.setG (cvttsd2si (m.getX r).lo.val) g) := rfl
@[simp] theorem exec_cvtsi2sdl {g : GReg} :
    exec rnd mem m (.cvtsi2sdl g dst) = some (m.setX ⟨.num (m.getG g).toInt, (m.getX dst).hi⟩ dst) := rfl
@[simp] theorem exec_addl {s : GOpnd} {g : GReg} :
    exec rnd mem m (.addl s g) = some (m.setG (m.getG g + gsrc m s) g) := rfl
@[simp] theorem exec_andl {s : GOpnd} {g : GReg} :
    exec rnd mem m (.andl s g) = some (m.setG (m.getG g &&& gsrc m s) g) := rfl
@[simp] theorem exec_shll {imm : Nat} {g : GReg} :
    exec rnd mem m (.shll imm g) = some (m.setG (m.getG g <<< imm) g) := rfl
@[simp] theorem exec_lea {g g' : GReg} : exec rnd mem m (.lea g g') = some (m.setG (m.getG g) g') := rfl

theorem loadSd_of {o : Nat} (h : o % 8 = 0 ∧ o + 8 ≤ tableSize) : loadSd mem o = some (mem o) := by
  simp [loadSd, h]

theorem loadPd_of {o : Nat} (h : o % 16 = 0 ∧ o + 16 ≤ tableSize) :
    loadPd mem o = some ⟨.bits (mem o), .bits (mem (o + 8))⟩ := by
  simp [loadPd, h]

end

/-- A straight-line listing, instruction after instruction; `none` if one of them stops. -/
def run (rnd : ℚ → ℚ) (mem : Nat → BitVec 64) : List Instr → Mach → Option Mach
  | [], m => some m
  | i :: is, m => (exec rnd mem m i).bind (run rnd mem is)

section

variable (rnd : ℚ → ℚ) (mem : Nat → BitVec 64)

@[simp] theorem run_nil (m : Mach) : run rnd mem [] m = some m := rfl

theorem run_cons (i : Instr) (is : List Instr) (m : Mach) :
    run rnd mem (i :: is) m = (exec rnd mem m i).bind (run rnd mem is) := rfl

/-- Stepping a listing: an instruction that does not stop hands its state to the rest.  Stated
    as a rewrite, not by `rfl`, so that checking a stepped proof never unfolds `run` over the
    rest of the listing. -/
theorem some_bind_run (is : List Instr) (m : Mach) :
    (some m).bind (run rnd mem is) = run rnd mem is m := by
  rw [Option.some_bind]

end

end Bionic.Libm.Sse
