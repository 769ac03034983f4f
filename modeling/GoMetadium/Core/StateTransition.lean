import Mathlib
import GoMetadium.Lib.Except

set_option autoImplicit false

/-! # Gas purchase, refund and fee accounting

`core/state_transition.go` and `core/state_processor.go`. A transaction buys its whole gas
limit up front (`buyGas`: `gas * gasPrice` wei leave the sender), pays the intrinsic gas,
runs in the EVM and gets back what it did not use, plus a refund capped at half the gas used
(`refundGas`). What it was charged is `gasUsed * gasPrice`. `TransitionDb` reports that
amount as the fee, and `ApplyTransaction` adds the fee to the block's `fees`, the amount that
Metadium's `accumulateRewards` later hands out together with the block reward.

On its way the fee changes representation twice: `TransitionDb` returns `bigFee.Uint64()`
(the low 64 bits of the product) and `ApplyTransaction` adds `big.NewInt(int64(fee))` (the
same bits read as a signed 64-bit number). Both conversions are modelled as Go defines them.

The EVM itself (`core/vm`) is far outside this model: it is the parameter `evm`, which given
the state, the message and the gas it may spend returns the new state, the gas left and the
VM error. Balances are `*big.Int` in the source and `Int` here; gas amounts are `uint64`
in the source and `Nat` here (no sum below can reach `2^64`).
-/

namespace GoMetadium.Core

/-! ## Go integer conversions -/

/-- `(*big.Int).Uint64`: the low 64 bits of the absolute value. -/
def bigUint64 (x : Int) : Nat := x.natAbs % 2 ^ 64

/-- `int64(u)` for a `uint64` value `u`: the same 64 bits read in two's complement. -/
def int64OfUint64 (u : Nat) : Int := if u < 2 ^ 63 then u else (u : Int) - 2 ^ 64

/-- `math.MaxUint64`. -/
def maxUint64 : Nat := 2 ^ 64 - 1

/-! ## Protocol constants (`params/protocol_params.go`) -/

def txGas : Nat := 21000
def txGasContractCreation : Nat := 53000
def txDataZeroGas : Nat := 4
def txDataNonZeroGasFrontier : Nat := 68
def txDataNonZeroGasEIP2028 : Nat := 16

/-! ## Data -/

/-- The consensus errors of a state transition. -/
inductive TxError where
  | nonceTooHigh
  | nonceTooLow
  | insufficientBalanceForGas
  | gasLimitReached
  | outOfGas
  | insufficientBalance
  deriving DecidableEq, Repr

/-- The errors the EVM returns: `ErrInsufficientBalance` is the one consensus error, every
other one only marks the transaction as failed. -/
inductive VmError where
  | insufficientBalance
  | other
  deriving DecidableEq, Repr

/-- `Message`: the fields of a transaction the state transition reads. `sender` is
`From()`, `recipient` is `To()` (`none` for a contract creation). -/
structure Message (A : Type) where
  sender : A
  recipient : Option A
  gasPrice : Nat
  gas : Nat
  value : Nat
  nonce : Nat
  checkNonce : Bool
  data : List UInt8
  deriving DecidableEq, Repr

/-- The part of `vm.StateDB` the state transition reads and writes. -/
structure StateDB (A : Type) where
  balance : A → Int
  nonce : A → Nat
  refund : Nat

variable {A : Type} [DecidableEq A]

def StateDB.subBalance (db : StateDB A) (a : A) (v : Int) : StateDB A :=
  { db with balance := Function.update db.balance a (db.balance a - v) }

def StateDB.addBalance (db : StateDB A) (a : A) (v : Int) : StateDB A :=
  { db with balance := Function.update db.balance a (db.balance a + v) }

def StateDB.setNonce (db : StateDB A) (a : A) (n : Nat) : StateDB A :=
  { db with nonce := Function.update db.nonce a n }

/-- The EVM, a parameter of the model: state, message and available gas in; state, gas left
and VM error out. It covers both `evm.Create` and `evm.Call`. -/
abbrev Evm (A : Type) := StateDB A → Message A → Nat → StateDB A × Nat × Option VmError

/-- `StateTransition`: the gas pool, the message, the gas left and bought, the state. -/
structure StateTransition (A : Type) where
  gp : Nat
  msg : Message A
  gas : Nat
  initialGas : Nat
  state : StateDB A

/-! ## The state transition -/

/-- `IntrinsicGas`. -/
def intrinsicGas (data : List UInt8) (contractCreation isHomestead isEIP2028 : Bool) :
    Except TxError Nat :=
  let gas := if contractCreation && isHomestead then txGasContractCreation else txGas
  if 0 < data.length then
    let nz := (data.filter (· ≠ 0)).length
    let nonZeroGas := if isEIP2028 then txDataNonZeroGasEIP2028 else txDataNonZeroGasFrontier
    if (maxUint64 - gas) / nonZeroGas < nz then .error .outOfGas
    else
      let gas := gas + nz * nonZeroGas
      let z := data.length - nz
      if (maxUint64 - gas) / txDataZeroGas < z then .error .outOfGas
      else .ok (gas + z * txDataZeroGas)
  else .ok gas

namespace StateTransition

/-- `useGas`. -/
def useGas (st : StateTransition A) (amount : Nat) : Except TxError (StateTransition A) :=
  if st.gas < amount then .error .outOfGas else .ok { st with gas := st.gas - amount }

/-- `buyGas`: check the sender can pay the whole gas limit, take the gas from the block's
pool (`gp.SubGas`) and the wei from the sender. -/
def buyGas (st : StateTransition A) : Except TxError (StateTransition A) :=
  let mgval : Int := st.msg.gas * st.msg.gasPrice
  if st.state.balance st.msg.sender < mgval then .error .insufficientBalanceForGas
  else if st.gp < st.msg.gas then .error .gasLimitReached
  else .ok { st with
    gp := st.gp - st.msg.gas
    gas := st.gas + st.msg.gas
    initialGas := st.msg.gas
    state := st.state.subBalance st.msg.sender mgval }

/-- `preCheck`: the nonce must be the sender's next one, then `buyGas`. -/
def preCheck (st : StateTransition A) : Except TxError (StateTransition A) :=
  if st.msg.checkNonce then
    let nonce := st.state.nonce st.msg.sender
    if nonce < st.msg.nonce then .error .nonceTooHigh
    else if nonce > st.msg.nonce then .error .nonceTooLow
    else st.buyGas
  else st.buyGas

/-- `gasUsed`. -/
def gasUsed (st : StateTransition A) : Nat := st.initialGas - st.gas

/-- `refundGas`: the refund counter, capped at half the gas used, is added to the gas left;
the gas left goes back to the sender at the original price and back to the pool. -/
def refundGas (st : StateTransition A) : StateTransition A :=
  let refund := min (st.gasUsed / 2) st.state.refund
  let gas := st.gas + refund
  let remaining : Int := gas * st.msg.gasPrice
  { st with
    gas := gas
    state := st.state.addBalance st.msg.sender remaining
    gp := st.gp + gas }

/-- What `TransitionDb` returns besides the state: `usedGas`, `fee` and `failed`. -/
structure Result where
  usedGas : Nat
  fee : Nat
  failed : Bool
  deriving DecidableEq, Repr

/-- The EVM part of `TransitionDb`: a creation runs `evm.Create`, a call first increments
the sender's nonce and runs `evm.Call`; the EVM's state and gas left replace the
transition's. -/
def runEvm (evm : Evm A) (st : StateTransition A) : StateTransition A × Option VmError :=
  let (state, gasLeft, vmerr) :=
    match st.msg.recipient with
    | none => evm st.state st.msg st.gas
    | some _ =>
      evm (st.state.setNonce st.msg.sender (st.state.nonce st.msg.sender + 1)) st.msg st.gas
  ({ st with state := state, gas := gasLeft }, vmerr)

/-- The end of `TransitionDb`: the refund, the fee `gasUsed * gasPrice` (credited to the
coinbase only in proof-of-work mode) and the three reported values. -/
def settle (isPoW : Bool) (coinbase : A) (st : StateTransition A) (vmerr : Option VmError) :
    Result × StateTransition A :=
  let st := refundGas st
  let bigFee : Int := st.gasUsed * st.msg.gasPrice
  let st := if isPoW then { st with state := st.state.addBalance coinbase bigFee } else st
  (⟨st.gasUsed, bigUint64 bigFee, vmerr.isSome⟩, st)

/-- `TransitionDb`. `isPoW` is `metaminer.IsPoW()`. -/
def transitionDb (evm : Evm A) (isPoW : Bool) (coinbase : A) (homestead istanbul : Bool)
    (st : StateTransition A) : Except TxError (Result × StateTransition A) := do
  let st ← st.preCheck
  let gas ← intrinsicGas st.msg.data st.msg.recipient.isNone homestead istanbul
  let st ← st.useGas gas
  let (st, vmerr) := runEvm evm st
  if vmerr = some .insufficientBalance then .error .insufficientBalance
  else .ok (settle isPoW coinbase st vmerr)

end StateTransition

/-! ## Blocks -/

/-- What `Process` accumulates over a block: the gas pool, the state, the gas used, the fees
and the receipts' `GasUsed`. -/
structure BlockAcc (A : Type) where
  gp : Nat
  state : StateDB A
  usedGas : Nat
  fees : Int
  receipts : List Nat

/-- `ApplyTransaction`: run the message and add its gas and its fee to the block's
counters. -/
def applyTransaction (evm : Evm A) (isPoW : Bool) (coinbase : A) (homestead istanbul : Bool)
    (acc : BlockAcc A) (msg : Message A) : Except TxError (BlockAcc A) := do
  let (r, st) ← StateTransition.transitionDb evm isPoW coinbase homestead istanbul
    ⟨acc.gp, msg, 0, 0, acc.state⟩
  .ok { gp := st.gp
        state := st.state
        usedGas := acc.usedGas + r.usedGas
        fees := acc.fees + int64OfUint64 r.fee
        receipts := acc.receipts ++ [r.usedGas] }

/-- `StateProcessor.Process`, up to the receipts' other fields and `Finalize`: apply the
messages in order from a pool holding the block's gas limit; the first error fails the
block. -/
def process (evm : Evm A) (isPoW : Bool) (coinbase : A) (homestead istanbul : Bool)
    (gasLimit : Nat) (state : StateDB A) (msgs : List (Message A)) :
    Except TxError (BlockAcc A) :=
  msgs.foldlM (applyTransaction evm isPoW coinbase homestead istanbul)
    ⟨gasLimit, state, 0, 0, []⟩

/-! ## The gas a pre-check buys -/

namespace StateTransition

theorem buyGas_ok {st st' : StateTransition A} (h : st.buyGas = .ok st') :
    st'.msg = st.msg ∧ st'.initialGas = st.msg.gas ∧ st'.gas = st.gas + st.msg.gas := by
  dsimp only [buyGas] at h
  split at h
  · cases h
  · split at h
    · cases h
    · cases h
      exact ⟨rfl, rfl, rfl⟩

theorem preCheck_ok {st st' : StateTransition A} (h : st.preCheck = .ok st') :
    st'.msg = st.msg ∧ st'.initialGas = st.msg.gas ∧ st'.gas = st.gas + st.msg.gas := by
  dsimp only [preCheck] at h
  split at h
  · split at h
    · cases h
    · split at h
      · cases h
      · exact buyGas_ok h
  · exact buyGas_ok h

end StateTransition

/-! ## What a block accumulates -/

/-- **A fee that wraps.** One transfer of `0` wei to an account without code, with gas limit
`21000` and a gas price of `439208192231180` wei, from a sender holding `10^19` wei: the EVM
spends no gas, the sender pays `21000 * 439208192231180 = 9223372036854780000` wei, which is
above `2^63`, and `Process` adds `-9223372036854771616` to the block's fees. -/
theorem process_fees_wrap :
    ∃ acc, process (A := Nat) (fun db _ gas => (db, gas, none)) false 0 true true 8000000
        ⟨fun _ => 10 ^ 19, fun _ => 0, 0⟩
        [⟨0, some 1, 439208192231180, 21000, 0, 0, true, []⟩] = .ok acc ∧
      acc.receipts = [21000] ∧ acc.fees = -9223372036854771616 ∧
      acc.fees ≠ ((21000 * 439208192231180 : Nat) : Int) :=
  ⟨_, rfl, rfl, rfl, by decide⟩

end GoMetadium.Core
