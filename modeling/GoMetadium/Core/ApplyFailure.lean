import GoMetadium.Core.StateTransition
import GoMetadium.Lib.Except

set_option autoImplicit false

/-! # What a failed transaction leaves behind (`core/state_transition.go`, `miner/worker.go`)

`TransitionDb` is a method on `*StateTransition`, and `ApplyTransaction` writes through the
pointers it is given: the block's gas pool, the header's `GasUsed` and the block's `Fees`.
A write made before an error stays. `GoMetadium.Core.StateTransition` models the runs that
succeed; here the same steps run in `EStateM`, which keeps the receiver when a step fails
(`transitionDbOn`, whose run `transitionDbOn_run` spells out). Each step checks before it
writes, so a step that fails leaves the receiver as it found it.

The worker's `commitTransaction` reverts the state database to its snapshot when
`ApplyTransaction` fails, and nothing else. `buyGas` has by then taken the whole gas limit
from the pool, and the error returns of `TransitionDb` after it skip `refundGas`: a
transaction that fails after `buyGas` drains its gas limit from the pool
(`commitTransaction_drains_pool`). `GasUsed` and `Fees` are written only on success.
-/

namespace GoMetadium.Core

variable {A : Type} [DecidableEq A]

namespace StateTransition

/-- `TransitionDb` on its receiver: `preCheck`, `useGas` of the intrinsic gas, the EVM and the
refund, each writing to the receiver, which keeps what the steps before an error wrote. -/
def transitionDbOn (evm : Evm A) (isPoW : Bool) (coinbase : A) (homestead istanbul : Bool) :
    EStateM TxError (StateTransition A) Result := do
  set (← MonadExcept.ofExcept (← get).preCheck)
  let st ← get
  let gas ← MonadExcept.ofExcept (intrinsicGas st.msg.data st.msg.recipient.isNone homestead istanbul)
  set (← MonadExcept.ofExcept (st.useGas gas))
  let (st, vmerr) := runEvm evm (← get)
  set st
  if vmerr = some .insufficientBalance then throw .insufficientBalance
  let (r, st) := settle isPoW coinbase st vmerr
  set st
  pure r

end StateTransition

/-- What the worker's `current` holds of the block being built: the gas pool, the header's
`GasUsed`, the block's `Fees` and the state. -/
structure Work (A : Type) where
  gp : Nat
  usedGas : Nat
  fees : Int
  state : StateDB A

/-- `ApplyTransaction(..., gp, statedb, header, tx, usedGas, fees, ...)` on the pointers it is
given: `TransitionDb` on a `StateTransition` that shares the pool and the state, then, on
success, `*usedGas += gas` and `fees.Add(fees, fee)`. -/
def applyTransactionOn (evm : Evm A) (isPoW : Bool) (coinbase : A) (homestead istanbul : Bool)
    (msg : Message A) : EStateM TxError (Work A) StateTransition.Result := fun w =>
  match (StateTransition.transitionDbOn evm isPoW coinbase homestead istanbul).run
      ⟨w.gp, msg, 0, 0, w.state⟩ with
  | .ok r st =>
    .ok r
      { gp := st.gp
        usedGas := w.usedGas + r.usedGas
        fees := w.fees + int64OfUint64 r.fee
        state := st.state }
  | .error e st => .error e { w with gp := st.gp, state := st.state }

/-- `worker.commitTransaction`: on an error the state goes back to its snapshot; the pool,
`GasUsed` and `Fees` stay as `ApplyTransaction` left them. -/
def commitTransaction (evm : Evm A) (isPoW : Bool) (coinbase : A) (homestead istanbul : Bool)
    (w : Work A) (msg : Message A) : Except TxError StateTransition.Result × Work A :=
  match (applyTransactionOn evm isPoW coinbase homestead istanbul msg).run w with
  | .ok r w' => (.ok r, w')
  | .error e w' => (.error e, { w' with state := w.state })

/-! ## The steps on the receiver -/

namespace StateTransition

variable {evm : Evm A} {isPoW : Bool} {coinbase : A} {homestead istanbul : Bool}

/-- A pure computation that may fail leaves the receiver alone. -/
theorem run_ofExcept {σ α : Type} (x : Except TxError α) (s : σ) :
    (MonadExcept.ofExcept x : EStateM TxError σ α).run s =
      match x with
      | .ok a => .ok a s
      | .error e => .error e s := by
  cases x <;> rfl

theorem buyGas_gp {st st' : StateTransition A} (h : st.buyGas = .ok st') :
    st'.gp = st.gp - st.msg.gas ∧ st.msg.gas ≤ st.gp := by
  dsimp only [buyGas] at h
  split at h
  · cases h
  · split at h
    · cases h
    · cases h
      exact ⟨rfl, by omega⟩

/-- `preCheck` takes the message's gas limit from the pool, which holds at least that much. -/
theorem preCheck_gp {st st' : StateTransition A} (h : st.preCheck = .ok st') :
    st'.gp = st.gp - st.msg.gas ∧ st.msg.gas ≤ st.gp := by
  dsimp only [preCheck] at h
  split at h
  · split at h
    · cases h
    · split at h
      · cases h
      · exact buyGas_gp h
  · exact buyGas_gp h

/-- The receiver after the checks: a failed `preCheck` leaves it alone, and then the pool is
whatever `preCheck` left. -/
theorem transitionDbOn_run (st : StateTransition A) :
    (transitionDbOn evm isPoW coinbase homestead istanbul).run st =
      match st.preCheck with
      | .error e => .error e st
      | .ok st1 =>
        match intrinsicGas st1.msg.data st1.msg.recipient.isNone homestead istanbul with
        | .error e => .error e st1
        | .ok gas =>
          match st1.useGas gas with
          | .error e => .error e st1
          | .ok st2 =>
            if (runEvm evm st2).2 = some .insufficientBalance then .error .insufficientBalance (runEvm evm st2).1
            else .ok (settle isPoW coinbase (runEvm evm st2).1 (runEvm evm st2).2).1
              (settle isPoW coinbase (runEvm evm st2).1 (runEvm evm st2).2).2 := by
  simp only [transitionDbOn, EStateM.run_bind, EStateM.run_get, run_ofExcept]
  cases st.preCheck with
  | error e => rfl
  | ok st1 =>
    simp only [EStateM.run_set]
    cases intrinsicGas st1.msg.data st1.msg.recipient.isNone homestead istanbul with
    | error e => rfl
    | ok gas =>
      simp only []
      cases st1.useGas gas with
      | error e => rfl
      | ok st2 =>
        dsimp only
        split_ifs <;> rfl

end StateTransition

/-! ## `ApplyTransaction` and the worker -/

variable {evm : Evm A} {isPoW : Bool} {coinbase : A} {homestead istanbul : Bool}

/-- **A transaction below its intrinsic gas drains the pool.** When `preCheck` passes, so that
`buyGas` has taken the message's gas limit from the pool, and the limit is below the intrinsic
gas, `commitTransaction` fails with `ErrOutOfGas`, reverts the state, and leaves the pool
short by the gas limit: later transactions of the block have that much less gas. -/
theorem commitTransaction_drains_pool {w : Work A} {msg : Message A} {gas : Nat}
    (hpre : ∃ st1, (⟨w.gp, msg, 0, 0, w.state⟩ : StateTransition A).preCheck = .ok st1)
    (hintr : intrinsicGas msg.data msg.recipient.isNone homestead istanbul = .ok gas)
    (hlow : msg.gas < gas) :
    commitTransaction evm isPoW coinbase homestead istanbul w msg =
      (.error .outOfGas, { w with gp := w.gp - msg.gas }) := by
  obtain ⟨st1, hpre⟩ := hpre
  obtain ⟨hmsg, -, hgas⟩ := StateTransition.preCheck_ok hpre
  have hgp := (StateTransition.preCheck_gp hpre).1
  have huse : st1.useGas gas = .error .outOfGas := by
    rw [StateTransition.useGas, if_pos (by rw [hgas]; simpa using hlow)]
  have hrun : (StateTransition.transitionDbOn evm isPoW coinbase homestead istanbul).run
      ⟨w.gp, msg, 0, 0, w.state⟩ = .error .outOfGas st1 := by
    rw [StateTransition.transitionDbOn_run, hpre]
    dsimp only
    rw [hmsg]
    dsimp only
    rw [hintr]
    dsimp only
    rw [huse]
  unfold commitTransaction applyTransactionOn
  simp only [EStateM.run] at hrun ⊢
  rw [hrun]
  dsimp only at hgp ⊢
  rw [hgp]

/-- A call of no data with a gas limit of 20000, below the 21000 of a transaction, from a pool
of 30000: the pool keeps 10000. -/
theorem commitTransaction_drains_pool_short :
    commitTransaction (A := Nat) (fun db _ g => (db, g, none)) false 0 true true
        ⟨30000, 0, 0, ⟨fun _ => 10 ^ 18, fun _ => 0, 0⟩⟩ ⟨0, some 1, 1, 20000, 0, 0, true, []⟩ =
      (.error .outOfGas, ⟨10000, 0, 0, ⟨fun _ => 10 ^ 18, fun _ => 0, 0⟩⟩) :=
  commitTransaction_drains_pool ⟨_, rfl⟩ rfl (by decide)

end GoMetadium.Core
