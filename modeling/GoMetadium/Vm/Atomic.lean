import GoMetadium.State.Revert
import GoMetadium.Vm.Evm

set_option autoImplicit false

/-! # Failed calls leave the state as it was

A call frame takes its snapshot before it changes anything and reverts to it on an error, so
the run of the contract, nested frames included, and the frame's own preparation (the
account created, the value moved, the touch) are all taken back by the exactness of
`RevertToSnapshot` (`StateDB.revertToSnapshot_of_undoes`). The gas the run left unused comes
back to the caller on a revert and is used up on any other error; the checks before the
snapshot fail with the state and the gas as they were. `create` is the exception on two counts: it
increments the caller's nonce before its snapshot, which stays, and before Homestead a
failure to pay for the code (`ErrCodeStoreOutOfGas`) is returned without a revert, leaving the
new account, the value moved and the run's changes in the state, and the gas left with the
caller (`create_codeStoreOutOfGas_frontier`).

The interpreter is any `EVM.run`: what follows holds for every code, input and gas.
-/

namespace GoMetadium.Vm

open GoMetadium.State

variable {Address Hash : Type} [DecidableEq Address] [DecidableEq Hash] [Zero Hash]

/-! ## What a failed frame leaves -/

/-- What a failed call leaves: every accessor returns what it returned before; and either a
check before the snapshot failed, which leaves the state and the gas as they were, or the
interpreter's run of the frame, given the call's gas and input, failed with the error, and the
gas it left unused comes back on a revert and is used up on any other error. -/
structure CallFails (evm : EVM Address Hash) (s : StateDB Address Hash) (input : List UInt8)
    (gas : Nat) (e : VmError) (out : CallOutcome Address Hash) : Prop where
  observe : out.state.observe evm.env = s.observe evm.env
  gas : ((e = .depth ∨ e = .insufficientBalance) ∧ out.state = s ∧ out.leftOverGas = gas) ∨
    ∃ (s' : StateDB Address Hash) (contract : Contract Address Hash) (readOnly : Bool),
      contract.gas = gas ∧ (evm.run s' contract input readOnly).err = some e ∧
      out.leftOverGas =
        if e = .executionReverted then (evm.run s' contract input readOnly).gasLeft else 0

/-- The state `create` runs the code of `address` in: after the caller's nonce increment and the
snapshot, the account created, its nonce set to 1 after EIP-158, and the value moved. -/
def createFrame (evm : EVM Address Hash) (s : StateDB Address Hash) (caller address : Address)
    (value : Int) : StateDB Address Hash :=
  let s₁ := ((s.SetNonce evm.env caller (s.GetNonce evm.env caller + 1)).Snapshot).2
  let s₂ := s₁.CreateAccount evm.env address
  Transfer evm.env (if evm.rules.isEIP158 then s₂.SetNonce evm.env address 1 else s₂) caller
    address value

/-- What a failed `create` leaves. A check that failed before the nonce changed leaves the state
and the gas as they were. After it, every accessor returns what it returned once the caller's
nonce was incremented, and no gas is left after the collision check; after a failure of the
frame's run or of the code's storage, the gas the run left unused comes back on a revert and is
used up on any other error. Before Homestead a failure to pay for the code is the exception: it
is returned without a revert, the state is the one the run left in the frame, on top of the new
account and the value moved, and the gas the run left unused is returned. -/
def CreateFails (evm : EVM Address Hash) (s : StateDB Address Hash) (caller : Address)
    (value : Int) (gas : Nat) (e : VmError) (out : CreateOutcome Address Hash) : Prop :=
  ((e = .depth ∨ e = .insufficientBalance) ∧ out.state = s ∧ out.leftOverGas = gas) ∨
  (out.state.observe evm.env =
      (s.SetNonce evm.env caller (s.GetNonce evm.env caller + 1)).observe evm.env ∧
    ((e = .contractAddressCollision ∧ out.leftOverGas = 0) ∨
      ∃ contract : Contract Address Hash, contract.gas = gas ∧
        (e = .executionReverted →
          (evm.run (createFrame evm s caller out.contractAddr value) contract [] false).err =
            some e) ∧
        out.leftOverGas = if e = .executionReverted then
          (evm.run (createFrame evm s caller out.contractAddr value) contract [] false).gasLeft
          else 0)) ∨
  (evm.rules.isHomestead = false ∧ e = .codeStoreOutOfGas ∧
    ∃ contract : Contract Address Hash, contract.gas = gas ∧
      runOps evm.env
          (evm.run (createFrame evm s caller out.contractAddr value) contract [] false).ops
          (createFrame evm s caller out.contractAddr value) = some out.state ∧
      out.leftOverGas =
        (evm.run (createFrame evm s caller out.contractAddr value) contract [] false).gasLeft)

omit [DecidableEq Address] in
/-- The check that failed before the snapshot. -/
theorem callFails_check {evm : EVM Address Hash} {s : StateDB Address Hash} {input : List UInt8}
    {gas : Nat} {e : VmError} (he : e = .depth ∨ e = .insufficientBalance) :
    CallFails evm s input gas e ⟨s, [], gas, some e⟩ :=
  ⟨rfl, .inl ⟨he, rfl, rfl⟩⟩

/-! ## The frame -/

theorem Transfer_undoes {env : Env Address Hash} {s : StateDB Address Hash} (hwf : s.Wf env)
    (sender recipient : Address) (amount : Int) :
    Undoes env s (Transfer env s sender recipient amount) :=
  let h := StateDB.SubBalance_undoes hwf sender amount
  h.trans (StateDB.AddBalance_undoes h.wf recipient amount)

namespace EVM

variable (evm : EVM Address Hash) {s₀ s : StateDB Address Hash}

/-- A run from the snapshot of `s₀` that ends in an error leaves the view of `s₀`; the error is
the run's, and the gas the run left comes back on a revert and is used up otherwise. -/
theorem runFrame_error (hwf : s₀.Wf evm.env) (hs : Undoes evm.env (s₀.Snapshot).2 s)
    {contract : Contract Address Hash} {input : List UInt8} {readOnly : Bool}
    {out : CallOutcome Address Hash} (h : evm.runFrame s (s₀.Snapshot).1 contract input readOnly = some out)
    {e : VmError} (herr : out.err = some e) :
    out.state.view evm.env = s₀.view evm.env ∧ (evm.run s contract input readOnly).err = some e ∧
      out.leftOverGas =
        if e = .executionReverted then (evm.run s contract input readOnly).gasLeft else 0 := by
  simp only [runFrame, Option.bind_eq_some_iff] at h
  obtain ⟨s₂, hrun, hend⟩ := h
  -- the preparation and the run, from the snapshot
  have hrun' : Undoes evm.env (s₀.Snapshot).2 s₂ := hs.trans (runOps_undoes evm.env _ s s₂ hs.wf hrun)
  obtain ⟨s₃, hrev, -, -, hview⟩ := StateDB.revertToSnapshot_of_undoes hwf hrun'
  cases hr : (evm.run s contract input readOnly).err with
  | none =>
    simp only [hr, Option.some.injEq] at hend
    subst hend
    cases herr
  | some err =>
    simp only [hr, hrev, Option.map_some, Option.some.injEq] at hend
    subst hend
    have hee : err = e := Option.some.inj herr
    subst hee
    exact ⟨hview, rfl, rfl⟩

/-- The frames of `Call`, `CallCode`, `DelegateCall` and `StaticCall`: prepared from the
snapshot by operations the journal undoes, then run with the call's gas. -/
theorem callFails_of_frame (hwf : s₀.Wf evm.env) (hs : Undoes evm.env (s₀.Snapshot).2 s)
    {contract : Contract Address Hash} {input : List UInt8} {readOnly : Bool}
    {out : CallOutcome Address Hash} {gas : Nat} (hgas : contract.gas = gas)
    (h : evm.runFrame s (s₀.Snapshot).1 contract input readOnly = some out) {e : VmError}
    (herr : out.err = some e) : CallFails evm s₀ input gas e out := by
  obtain ⟨hview, hrun, hleft⟩ := evm.runFrame_error hwf hs h herr
  refine ⟨?_, .inr ⟨s, contract, readOnly, hgas, hrun, hleft⟩⟩
  rw [observe_eq_view, observe_eq_view, hview]

/-! ## The four calls -/

theorem Call_error (hwf : s.Wf evm.env) {caller addr : Address} {input : List UInt8} {gas : Nat}
    {value : Int} {out : CallOutcome Address Hash}
    (h : evm.Call s caller addr input gas value = some out) {e : VmError}
    (herr : out.err = some e) : CallFails evm s input gas e out := by
  have h₁ := Undoes.refl (StateDB.Snapshot_undoes hwf).wf
  simp only [Call] at h
  split_ifs at h with hrec hdepth hbal hex hpre
  · cases h
    cases herr
  · cases h
    cases herr
    exact callFails_check (.inl rfl)
  · -- an existing account: the value moved
    exact evm.callFails_of_frame hwf (h₁.trans (Transfer_undoes h₁.wf caller addr value)) rfl h herr
  · -- a call to no account that does nothing
    cases h
    cases herr
  · -- the account is created, then the value moved
    have h₂ := h₁.trans (StateDB.CreateAccount_undoes h₁.wf addr)
    exact evm.callFails_of_frame hwf (h₂.trans (Transfer_undoes h₂.wf caller addr value)) rfl h herr
  · cases h
    cases herr
    exact callFails_check (.inr rfl)

theorem CallCode_error (hwf : s.Wf evm.env) {caller addr : Address} {input : List UInt8} {gas : Nat}
    {value : Int} {out : CallOutcome Address Hash}
    (h : evm.CallCode s caller addr input gas value = some out) {e : VmError}
    (herr : out.err = some e) : CallFails evm s input gas e out := by
  simp only [CallCode] at h
  split_ifs at h with hrec hdepth hbal
  · cases h
    cases herr
  · cases h
    cases herr
    exact callFails_check (.inl rfl)
  · exact evm.callFails_of_frame hwf (Undoes.refl (StateDB.Snapshot_undoes hwf).wf) rfl h herr
  · cases h
    cases herr
    exact callFails_check (.inr rfl)

theorem DelegateCall_error (hwf : s.Wf evm.env) {caller : Contract Address Hash} {addr : Address}
    {input : List UInt8} {gas : Nat} {out : CallOutcome Address Hash}
    (h : evm.DelegateCall s caller addr input gas = some out) {e : VmError}
    (herr : out.err = some e) : CallFails evm s input gas e out := by
  simp only [DelegateCall] at h
  split_ifs at h with hrec hdepth
  · cases h
    cases herr
  · cases h
    cases herr
    exact callFails_check (.inl rfl)
  · exact evm.callFails_of_frame hwf (Undoes.refl (StateDB.Snapshot_undoes hwf).wf) rfl h herr

theorem StaticCall_error (hwf : s.Wf evm.env) {caller addr : Address} {input : List UInt8}
    {gas : Nat} {out : CallOutcome Address Hash}
    (h : evm.StaticCall s caller addr input gas = some out) {e : VmError}
    (herr : out.err = some e) : CallFails evm s input gas e out := by
  have h₁ := Undoes.refl (StateDB.Snapshot_undoes hwf).wf
  simp only [StaticCall] at h
  split_ifs at h with hrec hdepth
  · cases h
    cases herr
  · cases h
    cases herr
    exact callFails_check (.inl rfl)
  · -- the touch is inside the frame
    exact evm.callFails_of_frame hwf (h₁.trans (StateDB.AddBalance_undoes h₁.wf addr 0)) rfl h herr

/-! ## Creation -/

theorem storeCode_undoes (hwf : s.Wf evm.env) (address : Address) (r : RunResult Address Hash)
    (maxCodeSizeExceeded : Bool) : Undoes evm.env s (evm.storeCode s address r maxCodeSizeExceeded).1 := by
  simp only [storeCode]
  split_ifs
  · exact StateDB.SetCode_undoes hwf address r.ret
  · exact Undoes.refl hwf
  · exact Undoes.refl hwf

/-- When the storage of the code reports an error, it leaves the state and the gas the run
left; it reports a revert only when the run reverted. -/
theorem storeCode_of_error {address : Address} {r : RunResult Address Hash}
    {maxCodeSizeExceeded : Bool} {err : VmError}
    (h : (evm.storeCode s address r maxCodeSizeExceeded).2.2 = some err) :
    (evm.storeCode s address r maxCodeSizeExceeded).1 = s ∧
      (evm.storeCode s address r maxCodeSizeExceeded).2.1 = r.gasLeft ∧
      (err = .executionReverted → r.err = some err) := by
  unfold storeCode at h ⊢
  by_cases hok : r.err = none ∧ ¬ maxCodeSizeExceeded = true
  · rw [if_pos hok] at h ⊢
    by_cases hpay : r.ret.length * createDataGas ≤ r.gasLeft
    · rw [if_pos hpay] at h
      cases h
    · -- the code is not paid for
      rw [if_neg hpay] at h ⊢
      cases h
      exact ⟨rfl, rfl, (fun h => nomatch h)⟩
  · rw [if_neg hok] at h ⊢
    exact ⟨rfl, rfl, fun _ => h⟩

/-- The gas a reverted `create` keeps, for the error it reports: the storage's error, or the
size error when the storage reported none. Only a revert of the run keeps the gas it left. -/
theorem storeCode_revert_gas {address : Address} {r : RunResult Address Hash}
    {maxCodeSizeExceeded : Bool} {e : VmError}
    (h : (evm.storeCode s address r maxCodeSizeExceeded).2.2 = some e ∨
      (e = .maxCodeSizeExceeded ∧ (evm.storeCode s address r maxCodeSizeExceeded).2.2 = none)) :
    (e = .executionReverted → r.err = some e) ∧
      (if (evm.storeCode s address r maxCodeSizeExceeded).2.2 ≠ some .executionReverted then 0
        else (evm.storeCode s address r maxCodeSizeExceeded).2.1) =
        if e = .executionReverted then r.gasLeft else 0 := by
  rcases h with herr | ⟨rfl, hnone⟩
  · -- the storage's error: a revert keeps the gas the run left
    obtain ⟨-, hgas, hrev⟩ := evm.storeCode_of_error herr
    refine ⟨hrev, ?_⟩
    rw [herr, hgas]
    by_cases hre : e = .executionReverted
    · rw [if_neg (by rw [hre]; exact not_not.mpr rfl), if_pos hre]
    · rw [if_pos (fun h => hre (Option.some.inj h)), if_neg hre]
  · -- the size error, with nothing else failed: no gas
    refine ⟨(fun h => nomatch h), ?_⟩
    rw [hnone, if_pos (Option.some_ne_none _).symm, if_neg (fun h => nomatch h)]

/-- The end of a `create` that fails: a revert to the snapshot, with the view at the snapshot
and the gas the run left on a revert and none otherwise; or, before Homestead only and on the
payment for the code, no revert, with the state and the gas the run left. -/
theorem finishCreate_error (hwf : s₀.Wf evm.env) (hs : Undoes evm.env (s₀.Snapshot).2 s)
    {address : Address} {r : RunResult Address Hash} {out : CreateOutcome Address Hash}
    (h : evm.finishCreate s (s₀.Snapshot).1 address r = some out) {e : VmError}
    (herr : out.err = some e) :
    (out.state.view evm.env = s₀.view evm.env ∧ out.contractAddr = address ∧
      (e = .executionReverted → r.err = some e) ∧
      out.leftOverGas = if e = .executionReverted then r.gasLeft else 0) ∨
    (evm.rules.isHomestead = false ∧ e = .codeStoreOutOfGas ∧ out.contractAddr = address ∧
      out.state = s ∧ out.leftOverGas = r.gasLeft) := by
  simp only [finishCreate] at h
  set stored := evm.storeCode s address r
    (decide (evm.rules.isEIP158 = true ∧ maxCodeSize < r.ret.length)) with hstored
  have hst : Undoes evm.env (s₀.Snapshot).2 stored.1 := hs.trans (evm.storeCode_undoes hs.wf address r _)
  -- the error reported: `stored`'s, or the size error when there is none
  have hreported : (if (evm.rules.isEIP158 = true ∧ maxCodeSize < r.ret.length) ∧ stored.2.2 = none
      then some VmError.maxCodeSizeExceeded else stored.2.2) = some e →
      stored.2.2 = some e ∨ (e = .maxCodeSizeExceeded ∧ stored.2.2 = none) := by
    split_ifs with hc
    · intro he
      exact .inr ⟨(Option.some.inj he).symm, hc.2⟩
    · exact .inl
  split at h
  · -- the revert to the snapshot
    left
    obtain ⟨s₃, hrev, -, -, hview⟩ := StateDB.revertToSnapshot_of_undoes hwf hst
    rw [hrev, Option.map_some, Option.some.injEq] at h
    subst h
    exact ⟨hview, rfl, evm.storeCode_revert_gas (hreported herr)⟩
  · -- no revert: only before Homestead, on the payment for the code
    right
    rename_i hrevert
    cases h
    rcases hreported herr with herr' | ⟨-, hnone⟩
    · obtain ⟨hs', hgas, -⟩ := evm.storeCode_of_error herr'
      have hcode : evm.rules.isHomestead = false ∧ e = .codeStoreOutOfGas := by
        by_contra hne
        apply hrevert
        right
        refine ⟨by rw [herr']; exact Option.some_ne_none e, ?_⟩
        cases hh : evm.rules.isHomestead
        · exact .inr fun heq => hne ⟨hh, Option.some.inj (herr'.symm.trans heq)⟩
        · exact .inl rfl
      exact ⟨hcode.1, hcode.2, rfl, hs', hgas⟩
    · -- the size error always reverts
      exfalso
      apply hrevert
      left
      by_contra hmax
      simp only [hmax, false_and, if_false] at herr
      rw [hnone] at herr
      cases herr

/-- The part of `create` after the frame is prepared: the run, unless recursion is off. -/
theorem createRun_error (hwf : s₀.Wf evm.env) (hs : Undoes evm.env (s₀.Snapshot).2 s)
    {address : Address} {contract : Contract Address Hash} {gas : Nat}
    {out : CreateOutcome Address Hash}
    (h : (if evm.noRecursion = true ∧ 0 < evm.depth then some ⟨s, [], address, gas, none⟩
      else (runOps evm.env (evm.run s contract [] false).ops s).bind fun s₂ =>
        evm.finishCreate s₂ (s₀.Snapshot).1 address (evm.run s contract [] false)) = some out)
    {e : VmError} (herr : out.err = some e) :
    (out.state.view evm.env = s₀.view evm.env ∧ out.contractAddr = address ∧
      (e = .executionReverted → (evm.run s contract [] false).err = some e) ∧
      out.leftOverGas = if e = .executionReverted then (evm.run s contract [] false).gasLeft else 0) ∨
    (evm.rules.isHomestead = false ∧ e = .codeStoreOutOfGas ∧ out.contractAddr = address ∧
      runOps evm.env (evm.run s contract [] false).ops s = some out.state ∧
      out.leftOverGas = (evm.run s contract [] false).gasLeft) := by
  split_ifs at h with hrec
  · cases h
    cases herr
  simp only [Option.bind_eq_some_iff] at h
  obtain ⟨s₂, hrun, hfin⟩ := h
  rcases evm.finishCreate_error hwf (hs.trans (runOps_undoes evm.env _ s s₂ hs.wf hrun)) hfin herr
    with hrev | ⟨hh, he, haddr, hstate, hgas⟩
  · exact .inl hrev
  · exact .inr ⟨hh, he, haddr, hstate ▸ hrun, hgas⟩

variable [Zero Address]

/-- A failed `create`. -/
theorem create_error (hwf : s.Wf evm.env) {caller : Address} {code : List UInt8} {codeHash : Hash}
    {gas : Nat} {value : Int} {address : Address} {out : CreateOutcome Address Hash}
    (h : evm.create s caller code codeHash gas value address = some out) {e : VmError}
    (herr : out.err = some e) : CreateFails evm s caller value gas e out := by
  simp only [create] at h
  split at h
  · cases h
    cases herr
    exact .inl ⟨.inl rfl, rfl, rfl⟩
  split at h
  · cases h
    cases herr
    exact .inl ⟨.inr rfl, rfl, rfl⟩
  -- the nonce is incremented; a collision stops there, and the frame starts from there
  set s₀ := s.SetNonce evm.env caller (s.GetNonce evm.env caller + 1) with hs₀
  have hwf₀ : s₀.Wf evm.env := (StateDB.SetNonce_undoes hwf caller _).wf
  split at h
  · cases h
    cases herr
    exact .inr (.inl ⟨rfl, .inl ⟨rfl, rfl⟩⟩)
  -- the account created, its nonce set after EIP-158, the value moved
  set s₁ := s₀.Snapshot.2 with hs₁
  have h₁ : Undoes evm.env s₁ s₁ := Undoes.refl (StateDB.Snapshot_undoes hwf₀).wf
  have h₂ := h₁.trans (StateDB.CreateAccount_undoes h₁.wf address)
  have h₃ : Undoes evm.env s₁ (if evm.rules.isEIP158 = true then
      (s₁.CreateAccount evm.env address).SetNonce evm.env address 1
      else s₁.CreateAccount evm.env address) := by
    split_ifs
    · exact h₂.trans (StateDB.SetNonce_undoes h₂.wf address 1)
    · exact h₂
  rcases evm.createRun_error hwf₀ (h₃.trans (Transfer_undoes h₃.wf caller address value)) h herr
    with ⟨hview, haddr, hrev, hgas⟩ | ⟨hh, he, haddr, hstate, hgas⟩
  · -- the frame's state is `createFrame` at the address `create` returns
    subst haddr
    refine .inr (.inl ⟨by rw [observe_eq_view, observe_eq_view, hview], .inr ⟨_, rfl, hrev, hgas⟩⟩)
  · subst haddr
    exact .inr (.inr ⟨hh, he, _, rfl, hstate, hgas⟩)

theorem Create_error (hwf : s.Wf evm.env) {caller : Address} {code : List UInt8} {gas : Nat}
    {value : Int} {out : CreateOutcome Address Hash} (h : evm.Create s caller code gas value = some out)
    {e : VmError} (herr : out.err = some e) : CreateFails evm s caller value gas e out :=
  evm.create_error hwf h herr

theorem Create2_error (hwf : s.Wf evm.env) {caller : Address} {code : List UInt8} {gas : Nat}
    {endowment : Int} {salt : Hash} {out : CreateOutcome Address Hash}
    (h : evm.Create2 s caller code gas endowment salt = some out) {e : VmError}
    (herr : out.err = some e) : CreateFails evm s caller endowment gas e out :=
  evm.create_error hwf h herr

end EVM

/-! ## Every entry point -/

/-- Failed frames leave the state as it was, at every entry point, with the gas the rule of the
frames gives: the four calls and the two creations. -/
structure Atomic [Zero Address] (evm : EVM Address Hash) (s : StateDB Address Hash) : Prop where
  call : ∀ caller addr input gas value out e, evm.Call s caller addr input gas value = some out →
    out.err = some e → CallFails evm s input gas e out
  callCode : ∀ caller addr input gas value out e,
    evm.CallCode s caller addr input gas value = some out → out.err = some e →
      CallFails evm s input gas e out
  delegateCall : ∀ caller addr input gas out e, evm.DelegateCall s caller addr input gas = some out →
    out.err = some e → CallFails evm s input gas e out
  staticCall : ∀ caller addr input gas out e, evm.StaticCall s caller addr input gas = some out →
    out.err = some e → CallFails evm s input gas e out
  create : ∀ caller code gas value out e, evm.Create s caller code gas value = some out →
    out.err = some e → CreateFails evm s caller value gas e out
  create2 : ∀ caller code gas endowment salt out e,
    evm.Create2 s caller code gas endowment salt = some out → out.err = some e →
      CreateFails evm s caller endowment gas e out

/-- **Call frames are atomic.** From every state a transaction reaches, for every
interpreter, caller, target, code, input, gas and value: a call that returns an error leaves
every accessor as before, and returns the gas its run left unused on a revert and no gas on any
other error of the run, or the state and all the gas when a check before the snapshot failed; a
creation that returns an error leaves the accessors as after the caller's nonce increment, with
the same rule for the gas, except before Homestead on the payment for the code, which is
returned without a revert, with the state and the gas the run left. -/
theorem frames_atomic [Zero Address] (evm : EVM Address Hash) (s : StateDB Address Hash)
    (hwf : s.Wf evm.env) : Atomic evm s where
  call _ _ _ _ _ _ _ h herr := evm.Call_error hwf h herr
  callCode _ _ _ _ _ _ _ h herr := evm.CallCode_error hwf h herr
  delegateCall _ _ _ _ _ _ h herr := evm.DelegateCall_error hwf h herr
  staticCall _ _ _ _ _ _ h herr := evm.StaticCall_error hwf h herr
  create _ _ _ _ _ _ h herr := evm.Create_error hwf h herr
  create2 _ _ _ _ _ _ _ h herr := evm.Create2_error hwf h herr

/-- Every frame from `New`, under Homestead rules, with an interpreter that makes no change. -/
theorem frames_atomic_new :
    (New ⟨fun _ => none, fun _ _ => 0, fun _ => []⟩ : StateDB Nat Nat).Wf ⟨fun _ => 0, 0, 3⟩ ∧
      Atomic (⟨⟨fun _ => 0, 0, 3⟩, ⟨true, true, true, true⟩, 0, false, fun _ => false,
        fun _ => false, fun _ => false, fun _ _ => 7, fun _ _ _ => 7,
        fun _ _ _ _ => ⟨[], [], 0, some .outOfGas⟩⟩ : EVM Nat Nat)
        (New ⟨fun _ => none, fun _ _ => 0, fun _ => []⟩) :=
  ⟨New_wf _ _, frames_atomic _ _ (New_wf _ _)⟩

/-! ## Before Homestead -/

/-- **Before Homestead a creation fails without a revert** when the code cannot be paid for:
`create` returns `ErrCodeStoreOutOfGas` but keeps the new account and leaves the gas to the
caller. From `New`, under Frontier rules, with an interpreter that returns one byte of code
and leaves 100 gas, less than the 200 the byte costs: account 7 exists after the failed
`Create`, and not after the caller's nonce increment alone. -/
theorem create_codeStoreOutOfGas_frontier :
    ((⟨⟨fun _ => 0, 0, 3⟩, ⟨false, false, false, false⟩, 0, false, fun _ => false,
        fun _ => false, fun _ => false, fun _ _ => 7, fun _ _ _ => 7,
        fun _ _ _ _ => ⟨[], [0], 100, none⟩⟩ : EVM Nat Nat).Create
          (New ⟨fun _ => none, fun _ _ => 0, fun _ => []⟩) 1 [] 1000 0).map
        (fun out => (out.err, out.leftOverGas, out.state.Exist ⟨fun _ => 0, 0, 3⟩ 7)) =
      some (some .codeStoreOutOfGas, 100, true) ∧
    ((New ⟨fun _ => none, fun _ _ => 0, fun _ => []⟩ : StateDB Nat Nat).SetNonce
      ⟨fun _ => 0, 0, 3⟩ 1 1).Exist ⟨fun _ => 0, 0, 3⟩ 7 = false := by
  constructor <;> decide

end GoMetadium.Vm
