import GoMetadium.State.StateDB

set_option autoImplicit false

/-! # Message calls and contract creation (`core/vm/evm.go`)

The entry points of the EVM into a new call frame: `Call`, `CallCode`, `DelegateCall`,
`StaticCall`, and `Create` and `Create2` through `create`. Each checks the depth and the
balance, takes a snapshot of the state, prepares the frame (creating the account, moving the
value, touching), runs the contract, and reverts to the snapshot if the run fails; `create`
also increments the caller's nonce, before its snapshot, and stores the code the run returns.

The interpreter is a parameter: `EVM.run` gives, for the state a frame starts in and the
contract it runs, what the run does to the state (a run of `Op`s, which includes the frames of
the calls the code makes) together with the returned data, the gas left and the error. The
state is the model of `core/state`.
-/

namespace GoMetadium.Vm

open GoMetadium.State

/-- The errors the entry points return or compare with; `other` stands for any other error
a run returns. -/
inductive VmError where
  | executionReverted
  | outOfGas
  | codeStoreOutOfGas
  | depth
  | insufficientBalance
  | contractAddressCollision
  | maxCodeSizeExceeded
  | other (n : Nat)
  deriving DecidableEq, Repr

/-- `params.Rules`, the fork rules the entry points read. -/
structure Rules where
  isHomestead : Bool
  isEIP158 : Bool
  isByzantium : Bool
  isIstanbul : Bool

/-- `params.CallCreateDepth`. -/
def callCreateDepth : Nat := 1024

/-- `params.MaxCodeSize` of this chain. -/
def maxCodeSize : Nat := 253952

/-- `params.CreateDataGas`, per byte of code stored. -/
def createDataGas : Nat := 200

/-- `Contract`: the frame a run executes. -/
structure Contract (Address Hash : Type) where
  callerAddress : Address
  self : Address
  value : Int
  gas : Nat
  code : List UInt8
  codeHash : Hash
  codeAddr : Option Address

/-- What a run of a contract does: the operations it makes on the state, the data it returns,
the gas it leaves and its error. -/
structure RunResult (Address Hash : Type) where
  ops : List (Op Address Hash)
  ret : List UInt8
  gasLeft : Nat
  err : Option VmError

/-- `EVM`, with the constants the entry points read and the interpreter: `run(evm, contract,
input, readOnly)` on the state a frame starts in. -/
structure EVM (Address Hash : Type) where
  env : Env Address Hash
  rules : Rules
  depth : Nat
  noRecursion : Bool
  precompiledHomestead : Address → Bool
  precompiledByzantium : Address → Bool
  precompiledIstanbul : Address → Bool
  createAddress : Address → Nat → Address
  createAddress2 : Address → Hash → Hash → Address
  run : StateDB Address Hash → Contract Address Hash → List UInt8 → Bool → RunResult Address Hash

/-- What `Call`, `CallCode`, `DelegateCall` and `StaticCall` return, with the state after. -/
structure CallOutcome (Address Hash : Type) where
  state : StateDB Address Hash
  ret : List UInt8
  leftOverGas : Nat
  err : Option VmError

/-- What `create` returns, with the state after. -/
structure CreateOutcome (Address Hash : Type) where
  state : StateDB Address Hash
  ret : List UInt8
  contractAddr : Address
  leftOverGas : Nat
  err : Option VmError

variable {Address Hash : Type} [DecidableEq Address] [DecidableEq Hash] [Zero Hash]

/-- `CanTransfer` of `core/evm.go`: the balance covers the amount. -/
def CanTransfer (env : Env Address Hash) (s : StateDB Address Hash) (addr : Address) (amount : Int) :
    Bool :=
  decide (amount ≤ s.GetBalance env addr)

/-- `Transfer` of `core/evm.go`. -/
def Transfer (env : Env Address Hash) (s : StateDB Address Hash) (sender recipient : Address)
    (amount : Int) : StateDB Address Hash :=
  (s.SubBalance env sender amount).AddBalance env recipient amount

namespace EVM

variable (evm : EVM Address Hash)

/-- The precompiled contracts of the rules. -/
def precompiles : Address → Bool :=
  if evm.rules.isIstanbul then evm.precompiledIstanbul
  else if evm.rules.isByzantium then evm.precompiledByzantium
  else evm.precompiledHomestead

/-- The end that `Call`, `CallCode`, `DelegateCall` and `StaticCall` share: run the contract;
on an error revert to the snapshot and, unless the error is a revert, use up the gas left. -/
def runFrame (s : StateDB Address Hash) (snapshot : Nat) (contract : Contract Address Hash)
    (input : List UInt8) (readOnly : Bool) : Option (CallOutcome Address Hash) :=
  let r := evm.run s contract input readOnly
  (runOps evm.env r.ops s).bind fun s =>
    match r.err with
    | none => some ⟨s, r.ret, r.gasLeft, none⟩
    | some err =>
      (s.RevertToSnapshot evm.env snapshot).map fun s =>
        ⟨s, r.ret, if err = .executionReverted then r.gasLeft else 0, some err⟩

/-- `Call(caller, addr, input, gas, value)`. -/
def Call (s : StateDB Address Hash) (caller addr : Address) (input : List UInt8) (gas : Nat)
    (value : Int) : Option (CallOutcome Address Hash) :=
  if evm.noRecursion ∧ 0 < evm.depth then some ⟨s, [], gas, none⟩
  else if callCreateDepth < evm.depth then some ⟨s, [], gas, some .depth⟩
  else if ¬ CanTransfer evm.env s caller value then some ⟨s, [], gas, some .insufficientBalance⟩
  else
    let (snapshot, s) := s.Snapshot
    let transferAndRun := fun (s : StateDB Address Hash) =>
      let s := Transfer evm.env s caller addr value
      evm.runFrame s snapshot
        ⟨caller, addr, value, gas, s.GetCode evm.env addr, s.GetCodeHash evm.env addr, some addr⟩
        input false
    if ¬ s.Exist evm.env addr then
      -- calling a non existing account, with no value and no precompile: nothing is done
      if ¬ evm.precompiles addr ∧ evm.rules.isEIP158 ∧ value = 0 then some ⟨s, [], gas, none⟩
      else transferAndRun (s.CreateAccount evm.env addr)
    else transferAndRun s

/-- `CallCode(caller, addr, input, gas, value)`: the code of `addr` run as the caller. -/
def CallCode (s : StateDB Address Hash) (caller addr : Address) (input : List UInt8) (gas : Nat)
    (value : Int) : Option (CallOutcome Address Hash) :=
  if evm.noRecursion ∧ 0 < evm.depth then some ⟨s, [], gas, none⟩
  else if callCreateDepth < evm.depth then some ⟨s, [], gas, some .depth⟩
  else if ¬ CanTransfer evm.env s caller value then some ⟨s, [], gas, some .insufficientBalance⟩
  else
    let (snapshot, s) := s.Snapshot
    evm.runFrame s snapshot
      ⟨caller, caller, value, gas, s.GetCode evm.env addr, s.GetCodeHash evm.env addr, some addr⟩
      input false

/-- `DelegateCall(caller, addr, input, gas)`: the code of `addr` run in the calling contract's
frame, with its caller and value (`AsDelegate`). -/
def DelegateCall (s : StateDB Address Hash) (caller : Contract Address Hash) (addr : Address)
    (input : List UInt8) (gas : Nat) : Option (CallOutcome Address Hash) :=
  if evm.noRecursion ∧ 0 < evm.depth then some ⟨s, [], gas, none⟩
  else if callCreateDepth < evm.depth then some ⟨s, [], gas, some .depth⟩
  else
    let (snapshot, s) := s.Snapshot
    evm.runFrame s snapshot
      ⟨caller.callerAddress, caller.self, caller.value, gas, s.GetCode evm.env addr,
        s.GetCodeHash evm.env addr, some addr⟩
      input false

/-- `StaticCall(caller, addr, input, gas)`: no value, read-only, and an `AddBalance` of zero
to touch the account. -/
def StaticCall (s : StateDB Address Hash) (caller addr : Address) (input : List UInt8) (gas : Nat) :
    Option (CallOutcome Address Hash) :=
  if evm.noRecursion ∧ 0 < evm.depth then some ⟨s, [], gas, none⟩
  else if callCreateDepth < evm.depth then some ⟨s, [], gas, some .depth⟩
  else
    let (snapshot, s) := s.Snapshot
    let contract : Contract Address Hash :=
      ⟨caller, addr, 0, gas, s.GetCode evm.env addr, s.GetCodeHash evm.env addr, some addr⟩
    let s := s.AddBalance evm.env addr 0
    evm.runFrame s snapshot contract input true

/-- The code storage of `create` after a run: if the run succeeded and the code is not too
large, the code is stored when its gas is paid, and `ErrCodeStoreOutOfGas` is the error
when it is not. The state, the gas left and the error. -/
def storeCode (s : StateDB Address Hash) (address : Address) (r : RunResult Address Hash)
    (maxCodeSizeExceeded : Bool) : StateDB Address Hash × Nat × Option VmError :=
  if r.err = none ∧ ¬ maxCodeSizeExceeded then
    if r.ret.length * createDataGas ≤ r.gasLeft then
      (s.SetCode evm.env address r.ret, r.gasLeft - r.ret.length * createDataGas, none)
    else (s, r.gasLeft, some .codeStoreOutOfGas)
  else (s, r.gasLeft, r.err)

variable [Zero Address]

/-- The end of `create` after the run: the code stored, then a revert to the snapshot on code
too large or on an error, but before Homestead not on `ErrCodeStoreOutOfGas`; the gas is
used up on a revert unless the error is a revert. -/
def finishCreate (s : StateDB Address Hash) (snapshot : Nat) (address : Address)
    (r : RunResult Address Hash) : Option (CreateOutcome Address Hash) :=
  let maxCodeSizeExceeded := evm.rules.isEIP158 ∧ maxCodeSize < r.ret.length
  let stored := evm.storeCode s address r maxCodeSizeExceeded
  let err := stored.2.2
  -- the error reported: the size error when nothing else failed
  let reported := if maxCodeSizeExceeded ∧ err = none then some .maxCodeSizeExceeded else err
  if maxCodeSizeExceeded ∨ (err ≠ none ∧ (evm.rules.isHomestead ∨ err ≠ some .codeStoreOutOfGas)) then
    (stored.1.RevertToSnapshot evm.env snapshot).map fun s =>
      ⟨s, r.ret, address, if err ≠ some .executionReverted then 0 else stored.2.1, reported⟩
  else some ⟨stored.1, r.ret, address, stored.2.1, reported⟩

/-- `create(caller, codeAndHash, gas, value, address)`. The nonce of the caller is incremented
before the snapshot, and stays on every error after it. -/
def create (s : StateDB Address Hash) (caller : Address) (code : List UInt8) (codeHash : Hash)
    (gas : Nat) (value : Int) (address : Address) : Option (CreateOutcome Address Hash) :=
  if callCreateDepth < evm.depth then some ⟨s, [], 0, gas, some .depth⟩
  else if ¬ CanTransfer evm.env s caller value then some ⟨s, [], 0, gas, some .insufficientBalance⟩
  else
    let nonce := s.GetNonce evm.env caller
    let s := s.SetNonce evm.env caller (nonce + 1)
    let contractHash := s.GetCodeHash evm.env address
    if s.GetNonce evm.env address ≠ 0 ∨ (contractHash ≠ 0 ∧ contractHash ≠ evm.env.emptyCodeHash) then
      some ⟨s, [], 0, 0, some .contractAddressCollision⟩
    else
      let (snapshot, s) := s.Snapshot
      let s := s.CreateAccount evm.env address
      let s := if evm.rules.isEIP158 then s.SetNonce evm.env address 1 else s
      let s := Transfer evm.env s caller address value
      let contract : Contract Address Hash := ⟨caller, address, value, gas, code, codeHash, some address⟩
      if evm.noRecursion ∧ 0 < evm.depth then some ⟨s, [], address, gas, none⟩
      else
        let r := evm.run s contract [] false
        (runOps evm.env r.ops s).bind fun s => evm.finishCreate s snapshot address r

/-- `Create(caller, code, gas, value)`: the address from the caller and its nonce; the code
hash is left zero, as `codeAndHash` has it until asked. -/
def Create (s : StateDB Address Hash) (caller : Address) (code : List UInt8) (gas : Nat) (value : Int) :
    Option (CreateOutcome Address Hash) :=
  let contractAddr := evm.createAddress caller (s.GetNonce evm.env caller)
  evm.create s caller code 0 gas value contractAddr

/-- `Create2(caller, code, gas, endowment, salt)`: the address from the caller, the salt and
the hash of the code. -/
def Create2 (s : StateDB Address Hash) (caller : Address) (code : List UInt8) (gas : Nat)
    (endowment : Int) (salt : Hash) : Option (CreateOutcome Address Hash) :=
  let hash := evm.env.keccak code
  evm.create s caller code hash gas endowment (evm.createAddress2 caller salt hash)

end EVM

end GoMetadium.Vm
