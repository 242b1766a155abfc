import Bionic.Libm.Binary64
import Bionic.Libm.CosTable
import Bionic.Libm.Sse
import Bionic.Libm.Cos
import Bionic.Libm.CosDataflow
import Bionic.Libm.CosDispatch
import Bionic.Libm.CosReduction
import Bionic.Libm.CosEven
import Bionic.Libm.CosExact
import Bionic.Libm.CosContract
import Bionic.Libm.Rounding
import Bionic.Libm.Hyperbolic
import Bionic.Libm.RemPio2
import Bionic.Libm.RemPio2Reduction
import Bionic.Linker.LinkedList
import Bionic.Linker.LinkedListChain
import Bionic.Linker.LinkedListRun
import Bionic.Linker.LinkedListShared
