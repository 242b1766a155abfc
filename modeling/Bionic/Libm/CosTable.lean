import Bionic.Libm.Binary64

/-
  `static_const_table` of `s_cos.S`: 564 `.long` words (2256 bytes), reproduced word for word.

  Read as doubles (low word first, as x86 stores them), the first 2048 bytes are the 64 angle
  entries of the header comment, one 32-byte row each: entry `M` holds, for `B = M·π/32`,
  `C_hl` (offset 0), `S_hi` (8), `S_lo` (16) and `sigma` (24).  The rows after them hold the
  coefficient pairs `SC_1`..`SC_4` (2048..2111, sine lane first), `P_2` twice (2112, 2120),
  `P_1` (2128), `P_3` (2144), `32/π` (2160), the unused `SHIFTER` (2176), `1.0` (2192), the
  sign masks `-0.0` (2208, 2224) and `(1/2, 1/2)` (2240).

  The list is kept in rows of eight words (one angle entry per row) so that a lookup stays
  shallow.  `entry_mirror` checks, word by word, the symmetry of the angle entries that makes
  `cos` even: entry `(32 - M) mod 64` is entry `M` with `C_hl` and `sigma` negated.
-/

namespace Bionic.Libm.CosTable

open Binary64

/-- The `.long` words of `static_const_table`, eight to a 32-byte row. -/
def staticConstTable : List (List (BitVec 32)) := [
    [0, 0, 0, 0, 0, 0, 0, 1072693248],
    [393047345, 3212032302, 3156849708, 1069094822, 3758096384, 3158189848, 0, 1072693248],
    [18115067, 3214126342, 1013556747, 1070135480, 3221225472, 3160567065, 0, 1072693248],
    [2476548698, 3215330282, 785751814, 1070765062, 2684354560, 3161838221, 0, 1072693248],
    [2255197647, 3216211105, 2796464483, 1071152610, 3758096384, 3160878317, 0, 1072693248],
    [1945768569, 3216915048, 939980347, 1071524701, 536870912, 1012796809, 0, 1072693248],
    [1539668340, 3217396327, 967731400, 1071761211, 536870912, 1015752157, 0, 1072693248],
    [1403757309, 3217886718, 621354454, 1071926515, 536870912, 1013450602, 0, 1072693248],
    [2583490354, 1070236281, 1719614413, 1072079006, 536870912, 3163282740, 0, 1071644672],
    [2485417816, 1069626316, 1796544321, 1072217216, 536870912, 3162686945, 0, 1071644672],
    [2598800519, 1068266419, 688824739, 1072339814, 3758096384, 1010431536, 0, 1071644672],
    [2140183630, 3214756396, 4051746225, 1072445618, 2147483648, 3161907377, 0, 1071644672],
    [1699043957, 3216902261, 3476196678, 1072533611, 536870912, 1014257638, 0, 1071644672],
    [1991047213, 1067753521, 1455828442, 1072602945, 3758096384, 1015505073, 0, 1070596096],
    [240740309, 3215727903, 3489094832, 1072652951, 536870912, 1014325783, 0, 1070596096],
    [257503056, 3214647653, 2748392742, 1072683149, 1073741824, 3163061750, 0, 1069547520],
    [0, 0, 0, 1072693248, 0, 0, 0, 0],
    [257503056, 1067164005, 2748392742, 1072683149, 1073741824, 3163061750, 0, 3217031168],
    [240740309, 1068244255, 3489094832, 1072652951, 536870912, 1014325783, 0, 3218079744],
    [1991047213, 3215237169, 1455828442, 1072602945, 3758096384, 1015505073, 0, 3218079744],
    [1699043957, 1069418613, 3476196678, 1072533611, 536870912, 1014257638, 0, 3219128320],
    [2140183630, 1067272748, 4051746225, 1072445618, 2147483648, 3161907377, 0, 3219128320],
    [2598800519, 3215750067, 688824739, 1072339814, 3758096384, 1010431536, 0, 3219128320],
    [2485417816, 3217109964, 1796544321, 1072217216, 536870912, 3162686945, 0, 3219128320],
    [2583490354, 3217719929, 1719614413, 1072079006, 536870912, 3163282740, 0, 3219128320],
    [1403757309, 1070403070, 621354454, 1071926515, 536870912, 1013450602, 0, 3220176896],
    [1539668340, 1069912679, 967731400, 1071761211, 536870912, 1015752157, 0, 3220176896],
    [1945768569, 1069431400, 939980347, 1071524701, 536870912, 1012796809, 0, 3220176896],
    [2255197647, 1068727457, 2796464483, 1071152610, 3758096384, 3160878317, 0, 3220176896],
    [2476548698, 1067846634, 785751814, 1070765062, 2684354560, 3161838221, 0, 3220176896],
    [18115067, 1066642694, 1013556747, 1070135480, 3221225472, 3160567065, 0, 3220176896],
    [393047345, 1064548654, 3156849708, 1069094822, 3758096384, 3158189848, 0, 3220176896],
    [0, 0, 0, 0, 0, 0, 0, 3220176896],
    [393047345, 1064548654, 3156849708, 3216578470, 3758096384, 1010706200, 0, 3220176896],
    [18115067, 1066642694, 1013556747, 3217619128, 3221225472, 1013083417, 0, 3220176896],
    [2476548698, 1067846634, 785751814, 3218248710, 2684354560, 1014354573, 0, 3220176896],
    [2255197647, 1068727457, 2796464483, 3218636258, 3758096384, 1013394669, 0, 3220176896],
    [1945768569, 1069431400, 939980347, 3219008349, 536870912, 3160280457, 0, 3220176896],
    [1539668340, 1069912679, 967731400, 3219244859, 536870912, 3163235805, 0, 3220176896],
    [1403757309, 1070403070, 621354454, 3219410163, 536870912, 3160934250, 0, 3220176896],
    [2583490354, 3217719929, 1719614413, 3219562654, 536870912, 1015799092, 0, 3219128320],
    [2485417816, 3217109964, 1796544321, 3219700864, 536870912, 1015203297, 0, 3219128320],
    [2598800519, 3215750067, 688824739, 3219823462, 3758096384, 3157915184, 0, 3219128320],
    [2140183630, 1067272748, 4051746225, 3219929266, 2147483648, 1014423729, 0, 3219128320],
    [1699043957, 1069418613, 3476196678, 3220017259, 536870912, 3161741286, 0, 3219128320],
    [1991047213, 3215237169, 1455828442, 3220086593, 3758096384, 3162988721, 0, 3218079744],
    [240740309, 1068244255, 3489094832, 3220136599, 536870912, 3161809431, 0, 3218079744],
    [257503056, 1067164005, 2748392742, 3220166797, 1073741824, 1015578102, 0, 3217031168],
    [0, 0, 0, 3220176896, 0, 0, 0, 0],
    [257503056, 3214647653, 2748392742, 3220166797, 1073741824, 1015578102, 0, 1069547520],
    [240740309, 3215727903, 3489094832, 3220136599, 536870912, 3161809431, 0, 1070596096],
    [1991047213, 1067753521, 1455828442, 3220086593, 3758096384, 3162988721, 0, 1070596096],
    [1699043957, 3216902261, 3476196678, 3220017259, 536870912, 3161741286, 0, 1071644672],
    [2140183630, 3214756396, 4051746225, 3219929266, 2147483648, 1014423729, 0, 1071644672],
    [2598800519, 1068266419, 688824739, 3219823462, 3758096384, 3157915184, 0, 1071644672],
    [2485417816, 1069626316, 1796544321, 3219700864, 536870912, 1015203297, 0, 1071644672],
    [2583490354, 1070236281, 1719614413, 3219562654, 536870912, 1015799092, 0, 1071644672],
    [1403757309, 3217886718, 621354454, 3219410163, 536870912, 3160934250, 0, 1072693248],
    [1539668340, 3217396327, 967731400, 3219244859, 536870912, 3163235805, 0, 1072693248],
    [1945768569, 3216915048, 939980347, 3219008349, 536870912, 3160280457, 0, 1072693248],
    [2255197647, 3216211105, 2796464483, 3218636258, 3758096384, 1013394669, 0, 1072693248],
    [2476548698, 3215330282, 785751814, 3218248710, 2684354560, 1014354573, 0, 1072693248],
    [18115067, 3214126342, 1013556747, 3217619128, 3221225472, 1013083417, 0, 1072693248],
    [393047345, 3212032302, 3156849708, 3216578470, 3758096384, 1010706200, 0, 1072693248],
    [1431655765, 3217380693, 0, 3219128320, 286331153, 1065423121, 1431655765, 1067799893],
    [436314138, 3207201184, 381774871, 3210133868, 2773927732, 1053236707, 436314138, 1056571808],
    [442499072, 1032893537, 442499072, 1032893537, 1413480448, 1069097467, 0, 0],
    [771977331, 996350346, 0, 0, 1841940611, 1076125488, 0, 0],
    [0, 1127743488, 0, 0, 0, 1072693248, 0, 0],
    [0, 2147483648, 0, 0, 0, 2147483648, 0, 0],
    [0, 1071644672, 0, 1071644672]]

/-- The word at byte offset `4 i`; zero past the end of the table. -/
def word (i : Nat) : BitVec 32 := (staticConstTable.getD (i / 8) []).getD (i % 8) 0

/-- The double at byte offset `o`: high word at `o + 4`, low word at `o`. -/
def double (o : Nat) : BitVec 64 := word (o / 4 + 1) ++ word (o / 4)

/-- The size of the table in bytes, as its `.size` directive states. -/
def tableSize : Nat := 2256

/-! ## Symmetry of the angle entries -/

/-- `b` is `-a`: its sign-flipped word, or both are zeros (a `+0.0` entry mirrors itself). -/
def mirrorNeg (a b : BitVec 64) : Bool := b == neg a || (mag a == 0 && mag b == 0)

/-- Entry `(32 - M) mod 64` against entry `M`, field by field: `C_hl` and `sigma` negated,
    `S_hi` and `S_lo` equal. -/
def entryMirrored (M : Nat) : Bool :=
  mirrorNeg (double (32 * M)) (double (32 * ((96 - M) % 64))) &&
  double (32 * ((96 - M) % 64) + 8) == double (32 * M + 8) &&
  double (32 * ((96 - M) % 64) + 16) == double (32 * M + 16) &&
  mirrorNeg (double (32 * M + 24)) (double (32 * ((96 - M) % 64) + 24))

theorem entry_mirror : ∀ M < 64, entryMirrored M = true := by decide

theorem toRat_of_mirrorNeg {a b : BitVec 64} (h : mirrorNeg a b = true) : toRat b = -toRat a := by
  simp only [mirrorNeg, Bool.or_eq_true, beq_iff_eq, Bool.and_eq_true] at h
  rcases h with rfl | ⟨ha, hb⟩
  · exact toRat_neg a
  · simp [toRat, ha, hb, scaled, bexp, frac]

variable {M : Nat} (hM : M < 64)
include hM

theorem mirror_cHl : toRat (double (32 * ((96 - M) % 64))) = -toRat (double (32 * M)) := by
  have := entry_mirror M hM
  simp only [entryMirrored, Bool.and_eq_true] at this
  exact toRat_of_mirrorNeg this.1.1.1

theorem mirror_sHi : double (32 * ((96 - M) % 64) + 8) = double (32 * M + 8) := by
  have := entry_mirror M hM
  simp only [entryMirrored, Bool.and_eq_true, beq_iff_eq] at this
  exact this.1.1.2

theorem mirror_sLo : double (32 * ((96 - M) % 64) + 16) = double (32 * M + 16) := by
  have := entry_mirror M hM
  simp only [entryMirrored, Bool.and_eq_true, beq_iff_eq] at this
  exact this.1.2

theorem mirror_sigma :
    toRat (double (32 * ((96 - M) % 64) + 24)) = -toRat (double (32 * M + 24)) := by
  have := entry_mirror M hM
  simp only [entryMirrored, Bool.and_eq_true] at this
  exact toRat_of_mirrorNeg this.2

end Bionic.Libm.CosTable
