import GoMetadium.State.Revert

set_option autoImplicit false

/-! # Net gas metering of `SSTORE` (`core/vm/gas_table.go`)

`gasSStore` charges by the current value alone before Constantinople and after Petersburg,
and by net metering (EIP-1283) in between; `gasSStoreEIP2200` charges by net metering with
its own constants and a sentry. Net metering reads the slot's value at the start of the
transaction (`GetCommittedState`, the original) beside its current value, and moves the refund
counter so that what a slot's writes cost, less what they refund, depends only on the
number of writes and on the original and final values.

The two net bodies are one function of their constants (`netSstoreGas`). A transaction is
modelled as a tree of `SSTORE`s, errors that stop a frame, and call frames that revert
(`SstoreOp`), run on the state database of `GoMetadium.State` with its journal; the gas of an
`SSTORE` is charged when the contract has it, and otherwise the frame stops out of gas after
the refund changes are made. What the writes that stay charge is traced (`Charge`).

The results: per slot, the charges telescope (`Telescopes`); the refund counter never goes
below the refunds the cleared slots owe back (`refundDebt`), so `SubRefund` never panics;
both while the counter does not wrap around `2^64`.
-/

namespace GoMetadium.Vm

open GoMetadium.State

/-! ## The constants -/

/-- The constants of a net-metering rule: the cost of a no-op, of the first write to a clean
slot from zero and from a value, and of a write to a dirty slot; the refund for clearing an
original value, and for resetting a slot to its original zero and to its original value. -/
structure NetGasTable where
  noop : UInt64
  init : UInt64
  clean : UInt64
  dirty : UInt64
  clearRefund : UInt64
  initRefund : UInt64
  cleanRefund : UInt64
  deriving DecidableEq, Repr

/-- `params.SstoreNoopGasEIP2200`, `SstoreInitGasEIP2200`, `SstoreCleanGasEIP2200`,
`SstoreDirtyGasEIP2200`, `SstoreClearRefundEIP2200`, `SstoreInitRefundEIP2200` and
`SstoreCleanRefundEIP2200`. -/
def eip2200Table : NetGasTable := ⟨800, 20000, 5000, 800, 15000, 19200, 4200⟩

/-- `params.NetSstoreNoopGas`, `NetSstoreInitGas`, `NetSstoreCleanGas`, `NetSstoreDirtyGas`,
`NetSstoreClearRefund`, `NetSstoreResetClearRefund` and `NetSstoreResetRefund`. -/
def constantinopleTable : NetGasTable := ⟨200, 20000, 5000, 200, 15000, 19800, 4800⟩

/-- `params.SstoreSentryGasEIP2200`. -/
def sstoreSentryGasEIP2200 : UInt64 := 2300

/-- `params.SstoreSetGas`. -/
def sstoreSetGas : UInt64 := 20000

/-- `params.SstoreClearGas`. -/
def sstoreClearGas : UInt64 := 5000

/-- `params.SstoreResetGas`. -/
def sstoreResetGas : UInt64 := 5000

/-- `params.SstoreRefundGas`. -/
def sstoreRefundGas : UInt64 := 15000

/-- What the telescoping needs of a table: a no-op costs a dirty write, a reset refunds what
the first write cost beyond a dirty write, and no cost or refund is above the cost of `init`. -/
structure NetGasTable.Lawful (p : NetGasTable) : Prop where
  noop_eq : p.noop = p.dirty
  initRefund_eq : p.initRefund.toNat + p.dirty.toNat = p.init.toNat
  cleanRefund_eq : p.cleanRefund.toNat + p.dirty.toNat = p.clean.toNat
  clean_le : p.clean.toNat ≤ p.init.toNat
  clearRefund_le : p.clearRefund.toNat ≤ p.init.toNat

theorem eip2200Table_lawful : eip2200Table.Lawful := ⟨rfl, rfl, rfl, by decide, by decide⟩

theorem constantinopleTable_lawful : constantinopleTable.Lawful :=
  ⟨rfl, rfl, rfl, by decide, by decide⟩

/-! ## The gas functions -/

variable {Address Hash : Type} [DecidableEq Address] [DecidableEq Hash] [Zero Hash]

/-- A gas function of `SSTORE` as the jump table holds it: from the state, the contract's
address and gas, and the key and value on the stack, the cost and the state its refund changes
leave, or an error; `none` is a panic. The stack words are the hashes `common.BigToHash`
makes of them. -/
abbrev SstoreGasFunc (Address Hash : Type) :=
  StateDB Address Hash → Address → UInt64 → Hash → Hash →
    Option (Except String (UInt64 × StateDB Address Hash))

/-- Clause 2.2.1 of a dirty slot: the refund for an original value that is cleared again or
recreated. -/
def clearClause (p : NetGasTable) (s : StateDB Address Hash) (original current value : Hash) :
    Option (StateDB Address Hash) :=
  if original ≠ 0 then
    -- recreate slot (2.2.1.1)
    if current = 0 then s.SubRefund p.clearRefund
    -- delete slot (2.2.1.2)
    else if value = 0 then some (s.AddRefund p.clearRefund)
    else some s
  else some s

/-- Clause 2.2.2 of a dirty slot: the refund for a slot reset to its original zero (2.2.2.1) or
value (2.2.2.2). -/
def resetClause (p : NetGasTable) (s : StateDB Address Hash) (original value : Hash) :
    StateDB Address Hash :=
  if original = value then
    if original = 0 then s.AddRefund p.initRefund else s.AddRefund p.cleanRefund
  else s

/-- The net-metering body of `gasSStore` and `gasSStoreEIP2200`, with the constants of either;
`none` is the panic of `SubRefund`. -/
def netSstoreGas (p : NetGasTable) (env : Env Address Hash) (s : StateDB Address Hash)
    (addr : Address) (key value : Hash) : Option (UInt64 × StateDB Address Hash) :=
  let current := s.GetState env addr key
  -- noop (1)
  if current = value then some (p.noop, s)
  else
    let original := s.GetCommittedState env addr key
    if original = current then
      -- create slot (2.1.1)
      if original = 0 then some (p.init, s)
      -- write existing slot (2.1.2), deleting it (2.1.2b)
      else some (p.clean, if value = 0 then s.AddRefund p.clearRefund else s)
    -- dirty update (2.2)
    else (clearClause p s original current value).map fun s =>
      (p.dirty, resetClause p s original value)

/-- `gasSStoreEIP2200`: the sentry, then net metering with the EIP-2200 constants. -/
def gasSStoreEIP2200 (env : Env Address Hash) : SstoreGasFunc Address Hash :=
  fun s addr gas key value =>
    if gas ≤ sstoreSentryGasEIP2200 then some (.error "not enough gas for reentrancy sentry")
    else (netSstoreGas eip2200Table env s addr key value).map .ok

/-- The fork rules `gasSStore` reads. -/
structure SstoreRules where
  isPetersburg : Bool
  isConstantinople : Bool
  deriving DecidableEq, Repr

/-- `gasSStore`: by the current value alone under the legacy rules, else net metering with the
Constantinople constants. -/
def gasSStore (rules : SstoreRules) (env : Env Address Hash) : SstoreGasFunc Address Hash :=
  fun s addr _ key value =>
    let current := s.GetState env addr key
    if rules.isPetersburg || !rules.isConstantinople then
      -- 0 => non 0
      if current = 0 ∧ value ≠ 0 then some (.ok (sstoreSetGas, s))
      -- non 0 => 0
      else if current ≠ 0 ∧ value = 0 then some (.ok (sstoreClearGas, s.AddRefund sstoreRefundGas))
      -- non 0 => non 0 (or 0 => 0)
      else some (.ok (sstoreResetGas, s))
    else (netSstoreGas constantinopleTable env s addr key value).map .ok

/-- The two net-metering rules. -/
inductive NetRule where
  | eip2200
  | constantinople
  deriving DecidableEq, Repr

/-- The gas function of a rule: `gasSStoreEIP2200`, or `gasSStore` between Constantinople and
Petersburg. -/
def NetRule.gasFunc : NetRule → Env Address Hash → SstoreGasFunc Address Hash
  | .eip2200, env => gasSStoreEIP2200 env
  | .constantinople, env => gasSStore ⟨false, true⟩ env

/-- The constants of a rule. -/
def NetRule.table : NetRule → NetGasTable
  | .eip2200 => eip2200Table
  | .constantinople => constantinopleTable

/-- A gas function that meters with `netSstoreGas` of `p`, or fails with an error and leaves
the state alone. -/
def NetMetered (g : SstoreGasFunc Address Hash) (p : NetGasTable) (env : Env Address Hash) :
    Prop :=
  ∀ s addr gas key value, g s addr gas key value = (netSstoreGas p env s addr key value).map .ok ∨
    ∃ e, g s addr gas key value = some (.error e)

theorem gasSStoreEIP2200_netMetered (env : Env Address Hash) :
    NetMetered (gasSStoreEIP2200 env) eip2200Table env := by
  intro s addr gas key value
  unfold gasSStoreEIP2200
  split
  · exact .inr ⟨_, rfl⟩
  · exact .inl rfl

theorem gasSStore_netMetered (env : Env Address Hash) :
    NetMetered (gasSStore ⟨false, true⟩ env) constantinopleTable env :=
  fun _ _ _ _ _ => .inl rfl

theorem NetRule.netMetered (rule : NetRule) (env : Env Address Hash) :
    NetMetered (rule.gasFunc env) rule.table env := by
  cases rule with
  | eip2200 => exact gasSStoreEIP2200_netMetered env
  | constantinople => exact gasSStore_netMetered env

theorem NetRule.lawful (rule : NetRule) : rule.table.Lawful := by
  cases rule with
  | eip2200 => exact eip2200Table_lawful
  | constantinople => exact constantinopleTable_lawful

/-! ## What a write costs and refunds -/

/-- The cost `netSstoreGas` charges for writing `value` over `current`, the original being
`original`. -/
def netGas (p : NetGasTable) (original current value : Hash) : UInt64 :=
  if current = value then p.noop
  else if original = current then (if original = 0 then p.init else p.clean)
  else p.dirty

/-- The change `clearClause` makes to the refund counter. -/
def clearDelta (p : NetGasTable) (original current value : Hash) : Int :=
  if original ≠ 0 then
    (if current = 0 then -(p.clearRefund.toNat : Int)
     else if value = 0 then (p.clearRefund.toNat : Int) else 0)
  else 0

/-- The change `resetClause` makes to the refund counter. -/
def resetDelta (p : NetGasTable) (original value : Hash) : Int :=
  if original = value then
    (if original = 0 then (p.initRefund.toNat : Int) else (p.cleanRefund.toNat : Int))
  else 0

/-- The change `netSstoreGas` makes to the refund counter, as an integer. -/
def netRefund (p : NetGasTable) (original current value : Hash) : Int :=
  if current = value then 0
  else if original = current then
    (if original ≠ 0 ∧ value = 0 then (p.clearRefund.toNat : Int) else 0)
  else clearDelta p original current value + resetDelta p original value

/-- What the writes to a slot from `original` to `current` have cost beyond a dirty write each:
the potential the charges telescope over. -/
def netCost (p : NetGasTable) (original current : Hash) : Int :=
  if original = current then p.dirty.toNat
  else if original = 0 then p.init.toNat
  else if current = 0 then (p.clean.toNat : Int) - p.clearRefund.toNat
  else p.clean.toNat

/-- The refund a slot owes back: `clearRefund` while an original value is cleared. -/
def debtOf (p : NetGasTable) (original current : Hash) : Nat :=
  if original ≠ 0 ∧ current = 0 then p.clearRefund.toNat else 0

section Arithmetic

variable {p : NetGasTable} (hp : p.Lawful) (o c v : Hash)
include hp

/-- **One write telescopes**: its cost less its refund is a dirty write and the step of
`netCost`. -/
theorem netGas_sub_netRefund :
    ((netGas p o c v).toNat : Int) - netRefund p o c v =
      p.dirty.toNat + netCost p o v - netCost p o c := by
  have hnoop : p.noop.toNat = p.dirty.toNat := by rw [hp.noop_eq]
  have hinit := hp.initRefund_eq
  have hclean := hp.cleanRefund_eq
  unfold netGas netRefund clearDelta resetDelta netCost
  split_ifs <;> subst_vars <;> simp_all <;> omega

/-- A write refunds at most the cost of `init`. -/
theorem netRefund_le_init : netRefund p o c v ≤ p.init.toNat := by
  have hinit := hp.initRefund_eq
  have hclean := hp.cleanRefund_eq
  have hcl := hp.clean_le
  have hcr := hp.clearRefund_le
  unfold netRefund clearDelta resetDelta
  split_ifs <;> subst_vars <;> simp_all <;> omega

end Arithmetic

/-- **A write never takes the counter below what the slots owe back**: its refund covers the
change of the slot's debt. -/
theorem debtOf_sub_le_netRefund (p : NetGasTable) (o c v : Hash) :
    (debtOf p o v : Int) - debtOf p o c ≤ netRefund p o c v := by
  unfold debtOf netRefund clearDelta resetDelta
  split_ifs <;> subst_vars <;> simp_all

/-! ## Changes of the refund counter -/

section Refunds

variable {env : Env Address Hash} {s t u : StateDB Address Hash} {p : NetGasTable}

/-- A change of the refund counter alone, which the journal undoes. -/
structure RefundStep (env : Env Address Hash) (s t : StateDB Address Hash) : Prop where
  undoes : Undoes env s t
  stateObjects : t.stateObjects = s.stateObjects

theorem RefundStep.refl (hwf : s.Wf env) : RefundStep env s s := ⟨Undoes.refl hwf, rfl⟩

theorem RefundStep.trans (h₁ : RefundStep env s t) (h₂ : RefundStep env t u) :
    RefundStep env s u :=
  ⟨h₁.undoes.trans h₂.undoes, h₂.stateObjects.trans h₁.stateObjects⟩

theorem RefundStep.getStateObject (h : RefundStep env s t) :
    t.getStateObject env = s.getStateObject env := by
  funext a
  simp only [StateDB.getStateObject, StateDB.getDeletedStateObject, h.stateObjects, h.undoes.db]

theorem RefundStep.GetState (h : RefundStep env s t) (a : Address) (key : Hash) :
    t.GetState env a key = s.GetState env a key := by
  simp only [StateDB.GetState, h.getStateObject, h.undoes.db]

theorem RefundStep.GetCommittedState (h : RefundStep env s t) (a : Address) (key : Hash) :
    t.GetCommittedState env a key = s.GetCommittedState env a key := by
  simp only [StateDB.GetCommittedState, h.getStateObject, h.undoes.db]

theorem addRefund_step (hwf : s.Wf env) (x : UInt64) : RefundStep env s (s.AddRefund x) :=
  ⟨StateDB.AddRefund_undoes hwf x, rfl⟩

omit [DecidableEq Hash] [Zero Hash] in
/-- `AddRefund` adds, while the counter does not wrap around. -/
theorem addRefund_toNat (x : UInt64) (h : s.refund.toNat + x.toNat < 2 ^ 64) :
    (s.AddRefund x).refund.toNat = s.refund.toNat + x.toNat := by
  show (s.refund + x).toNat = _
  rw [UInt64.toNat_add, Nat.mod_eq_of_lt h]

/-- `SubRefund` of no more than the counter subtracts. -/
theorem subRefund_step (hwf : s.Wf env) {x : UInt64} (h : x.toNat ≤ s.refund.toNat) :
    ∃ t, s.SubRefund x = some t ∧ RefundStep env s t ∧ t.refund.toNat = s.refund.toNat - x.toNat := by
  have hle : ¬ x > s.refund := by
    rw [gt_iff_lt, UInt64.lt_iff_toNat_lt]
    omega
  have hsub : s.SubRefund x =
      some { s.appendJournal (.refundChange s.refund) with refund := s.refund - x } := by
    simp only [StateDB.SubRefund, if_neg hle]
  refine ⟨_, hsub, ⟨StateDB.SubRefund_undoes hwf x hsub, rfl⟩, ?_⟩
  exact UInt64.toNat_sub_of_le _ _ (UInt64.le_iff_toNat_le.mpr h)

/-- Clause 2.2.1 panics only on a slot that owes no refund back. -/
theorem clearClause_spec (hwf : s.Wf env) (o c v : Hash)
    (hroom : s.refund.toNat + p.clearRefund.toNat < 2 ^ 64) (hdebt : debtOf p o c ≤ s.refund.toNat) :
    ∃ t, clearClause p s o c v = some t ∧ RefundStep env s t ∧
      (t.refund.toNat : Int) = s.refund.toNat + clearDelta p o c v := by
  unfold clearClause clearDelta
  by_cases ho : o ≠ 0
  · rw [if_pos ho, if_pos ho]
    by_cases hc : c = 0
    -- recreate slot: the cleared slot owes the refund that is taken back
    · rw [if_pos hc, if_pos hc]
      have howed : debtOf p o c = p.clearRefund.toNat := by simp [debtOf, ho, hc]
      obtain ⟨t, ht, hstep, hr⟩ := subRefund_step hwf (x := p.clearRefund) (by omega)
      exact ⟨t, ht, hstep, by omega⟩
    · rw [if_neg hc, if_neg hc]
      by_cases hv : v = 0
      · rw [if_pos hv, if_pos hv]
        refine ⟨_, rfl, addRefund_step hwf _, ?_⟩
        rw [addRefund_toNat _ hroom]
        push_cast
        ring
      · rw [if_neg hv, if_neg hv]
        exact ⟨s, rfl, RefundStep.refl hwf, by ring⟩
  · rw [if_neg ho, if_neg ho]
    exact ⟨s, rfl, RefundStep.refl hwf, by ring⟩

/-- Clause 2.2.2 adds a refund of at most `init`. -/
theorem resetClause_spec (hp : p.Lawful) (hwf : s.Wf env) (o v : Hash)
    (hroom : o = v → s.refund.toNat + p.init.toNat < 2 ^ 64) :
    RefundStep env s (resetClause p s o v) ∧
      ((resetClause p s o v).refund.toNat : Int) = s.refund.toNat + resetDelta p o v := by
  unfold resetClause resetDelta
  by_cases hov : o = v
  · have hroom' := hroom hov
    rw [if_pos hov, if_pos hov]
    by_cases ho : o = 0
    · rw [if_pos ho, if_pos ho]
      have hle : p.initRefund.toNat ≤ p.init.toNat := by
        have := hp.initRefund_eq
        omega
      refine ⟨addRefund_step hwf _, ?_⟩
      rw [addRefund_toNat _ (by omega)]
      push_cast
      ring
    · rw [if_neg ho, if_neg ho]
      have hle : p.cleanRefund.toNat ≤ p.init.toNat := by
        have := hp.cleanRefund_eq
        have := hp.clean_le
        omega
      refine ⟨addRefund_step hwf _, ?_⟩
      rw [addRefund_toNat _ (by omega)]
      push_cast
      ring
  · rw [if_neg hov, if_neg hov]
    exact ⟨RefundStep.refl hwf, by ring⟩

/-- **The spec of a net-metered write**: no panic while the slot's debt is covered and the
counter has room for `init`; the cost is `netGas`, and the refund counter moves by `netRefund`
and nothing else changes. -/
theorem netSstoreGas_spec (hp : p.Lawful) (hwf : s.Wf env) (addr : Address) (key value : Hash)
    (hroom : s.refund.toNat + p.init.toNat < 2 ^ 64)
    (hdebt : debtOf p (s.GetCommittedState env addr key) (s.GetState env addr key) ≤ s.refund.toNat) :
    ∃ t, netSstoreGas p env s addr key value =
        some (netGas p (s.GetCommittedState env addr key) (s.GetState env addr key) value, t) ∧
      RefundStep env s t ∧
      (t.refund.toNat : Int) =
        s.refund.toNat + netRefund p (s.GetCommittedState env addr key) (s.GetState env addr key) value := by
  have hclear := hp.clearRefund_le
  unfold netSstoreGas netGas netRefund
  generalize s.GetState env addr key = c at hdebt ⊢
  generalize s.GetCommittedState env addr key = o at hdebt ⊢
  dsimp only
  by_cases hcv : c = value
  -- noop
  · rw [if_pos hcv, if_pos hcv, if_pos hcv]
    exact ⟨s, rfl, RefundStep.refl hwf, by ring⟩
  · rw [if_neg hcv, if_neg hcv, if_neg hcv]
    by_cases hoc : o = c
    · rw [if_pos hoc, if_pos hoc, if_pos hoc]
      by_cases ho : o = 0
      -- create slot
      · rw [if_pos ho, if_pos ho]
        exact ⟨s, rfl, RefundStep.refl hwf, by simp [ho]⟩
      · rw [if_neg ho, if_neg ho]
        by_cases hv : value = 0
        -- delete slot
        · refine ⟨s.AddRefund p.clearRefund, by rw [if_pos hv], addRefund_step hwf _, ?_⟩
          rw [addRefund_toNat _ (by omega), if_pos ⟨ho, hv⟩]
          push_cast
          ring
        · exact ⟨s, by rw [if_neg hv], RefundStep.refl hwf, by simp [hv]⟩
    -- dirty update: clause 2.2.1, then clause 2.2.2
    · rw [if_neg hoc, if_neg hoc, if_neg hoc]
      obtain ⟨t₁, ht₁, hs₁, hr₁⟩ := clearClause_spec hwf o c value (by omega) hdebt
      -- a reset follows a clause that refunds nothing: its original value is not cleared
      have hroom₁ : o = value → t₁.refund.toNat + p.init.toNat < 2 ^ 64 := by
        intro hov
        have hneg : clearDelta p o c value ≤ 0 := by
          unfold clearDelta
          subst hov
          split_ifs <;> simp_all
        omega
      obtain ⟨hs₂, hr₂⟩ := resetClause_spec hp hs₁.undoes.wf o value hroom₁
      refine ⟨resetClause p t₁ o value, by rw [ht₁]; rfl, hs₁.trans hs₂, ?_⟩
      rw [hr₂, hr₁]
      ring

end Refunds

/-! ## Writes -/

section Writes

variable {env : Env Address Hash} {s t : StateDB Address Hash}

theorem getStateObject_setStateObject (o : StateObject Address Hash) (a : Address) :
    (s.setStateObject o).getStateObject env a =
      if a = o.address then (if o.deleted then none else some o) else s.getStateObject env a := by
  simp only [StateDB.getStateObject, StateDB.getDeletedStateObject_setStateObject]
  split_ifs <;> simp_all

omit [DecidableEq Address] in
/-- The reads of a live object are its own. -/
theorem GetState_of_live {a : Address} {o : StateObject Address Hash}
    (h : s.getStateObject env a = some o) (k : Hash) : s.GetState env a k = o.GetState s.db k := by
  simp only [StateDB.GetState, h]

omit [DecidableEq Address] in
theorem GetCommittedState_of_live {a : Address} {o : StateObject Address Hash}
    (h : s.getStateObject env a = some o) (k : Hash) :
    s.GetCommittedState env a k = o.GetCommittedState s.db k := by
  simp only [StateDB.GetCommittedState, h]

variable (env) in
/-- Storing a live object changes the reads at its address alone. -/
theorem reads_setStateObject (o : StateObject Address Hash) (hd : o.deleted = false)
    (a : Address) (k : Hash) :
    (s.setStateObject o).GetState env a k =
        (if a = o.address then o.GetState s.db k else s.GetState env a k) ∧
      (s.setStateObject o).GetCommittedState env a k =
        (if a = o.address then o.GetCommittedState s.db k else s.GetCommittedState env a k) := by
  by_cases ha : a = o.address
  · have hlive : (s.setStateObject o).getStateObject env a = some o := by
      rw [getStateObject_setStateObject, if_pos ha, hd]
      rfl
    rw [if_pos ha, if_pos ha, GetState_of_live hlive, GetCommittedState_of_live hlive]
    exact ⟨rfl, rfl⟩
  · have hother : (s.setStateObject o).getStateObject env a = s.getStateObject env a := by
      rw [getStateObject_setStateObject, if_neg ha]
    rw [if_neg ha, if_neg ha]
    exact ⟨by simp only [StateDB.GetState, hother]; rfl,
      by simp only [StateDB.GetCommittedState, hother]; rfl⟩

/-- `GetOrNewStateObject` changes no read: a new object reads the empty trie, which holds
nothing, as the missing one read zero. -/
theorem GetOrNewStateObject_reads (hwf : s.Wf env) (hempty : ∀ k, s.db.storage env.emptyRoot k = 0)
    (a : Address) (a' : Address) (k : Hash) :
    (s.GetOrNewStateObject env a).1.GetState env a' k = s.GetState env a' k ∧
      (s.GetOrNewStateObject env a).1.GetCommittedState env a' k = s.GetCommittedState env a' k ∧
      (s.GetOrNewStateObject env a).1.refund = s.refund ∧
      (s.GetOrNewStateObject env a).2.address = a := by
  unfold StateDB.GetOrNewStateObject
  split
  · rename_i o ho
    exact ⟨rfl, rfl, rfl, getStateObject_address hwf.keyed ho⟩
  · rename_i hnone
    obtain ⟨e, he, -⟩ := StateDB.createObject_spec hwf a
    dsimp only
    rw [he]
    obtain ⟨hget, hcom⟩ := reads_setStateObject env (s := s.appendJournal e)
      (s.createObject env a).2.1 rfl a' k
    rw [StateDB.createObject_address] at hget hcom
    refine ⟨?_, ?_, rfl, rfl⟩
    · rw [hget]
      split_ifs with ha
      -- the new object has no storage of its own and reads the empty trie
      · subst ha
        have hzero : s.GetState env a' k = 0 := by simp only [StateDB.GetState, hnone]
        rw [hzero]
        simpa [StateDB.createObject, newObject, StateObject.setNonce, StateObject.GetState,
          StateObject.GetCommittedState] using hempty k
      · rfl
    · rw [hcom]
      split_ifs with ha
      · subst ha
        have hzero : s.GetCommittedState env a' k = 0 := by
          simp only [StateDB.GetCommittedState, hnone]
        rw [hzero]
        simpa [StateDB.createObject, newObject, StateObject.setNonce,
          StateObject.GetCommittedState] using hempty k
      · rfl

/-- **`SetState` writes one slot**: the current value there becomes `value`, and nothing else
that the metering reads changes. -/
theorem SetState_reads (hwf : s.Wf env) (hempty : ∀ k, s.db.storage env.emptyRoot k = 0)
    (a : Address) (key value : Hash) (a' : Address) (k : Hash) :
    (s.SetState env a key value).GetState env a' k =
        (if a' = a ∧ k = key then value else s.GetState env a' k) ∧
      (s.SetState env a key value).GetCommittedState env a' k = s.GetCommittedState env a' k ∧
      (s.SetState env a key value).refund = s.refund := by
  obtain ⟨hundo, hlive⟩ := StateDB.GetOrNewStateObject_undoes hwf a
  have hreads := GetOrNewStateObject_reads hwf hempty a
  have haddr := (hreads a k).2.2.2
  -- the object `SetState` writes to, live in the state `GetOrNewStateObject` leaves
  set t := (s.GetOrNewStateObject env a).1 with ht
  set o := (s.GetOrNewStateObject env a).2 with ho
  show (o.SetState key value t).GetState env a' k = _ ∧
    (o.SetState key value t).GetCommittedState env a' k = _ ∧ (o.SetState key value t).refund = _
  simp only [StateObject.SetState]
  by_cases hsame : o.GetState t.db key = value
  -- the value is already there
  · rw [if_pos hsame]
    refine ⟨?_, (hreads a' k).2.1, (hreads a' k).2.2.1⟩
    by_cases hslot : a' = a ∧ k = key
    · obtain ⟨rfl, rfl⟩ := hslot
      rw [if_pos ⟨rfl, rfl⟩, ← hsame]
      exact GetState_of_live (haddr ▸ hlive) k
    · rw [if_neg hslot]
      exact (hreads a' k).1
  · rw [if_neg hsame]
    have hd : (o.setState key value).deleted = false := (live_objects hlive).2
    obtain ⟨hget, hcom⟩ := reads_setStateObject env (s := t.appendJournal _) _ hd a' k
    refine ⟨?_, ?_, (hreads a' k).2.2.1⟩
    · rw [hget]
      show (if a' = o.address then (o.setState key value).GetState t.db k else t.GetState env a' k) = _
      rw [GetState_setState, haddr]
      by_cases ha : a' = a
      · rw [if_pos ha]
        by_cases hk : k = key
        · rw [if_pos ⟨ha, hk⟩, hk, Function.update_self]
        · rw [if_neg (fun h => hk h.2), Function.update_of_ne hk, ← (hreads a' k).1, ha,
            GetState_of_live (haddr ▸ hlive)]
      · rw [if_neg ha, if_neg (fun h => ha h.1)]
        exact (hreads a' k).1
    · rw [hcom]
      show (if a' = o.address then (o.setState key value).GetCommittedState t.db k
        else t.GetCommittedState env a' k) = _
      rw [haddr]
      split_ifs with ha
      · rw [← (hreads a' k).2.1, ha, GetCommittedState_of_live (haddr ▸ hlive)]
        rfl
      · exact (hreads a' k).2.1

end Writes

/-! ## Runs of a transaction -/

/-- What a transaction does as net metering sees it. -/
inductive SstoreOp (Address Hash : Type) where
  /-- `SSTORE` of `value` at `key` by the contract at `addr` with `gas` left. -/
  | sstore (addr : Address) (gas : UInt64) (key value : Hash)
  /-- Any other error of the frame, which stops it. -/
  | halt
  /-- A call: the callee's operations in a frame of their own, reverted when they stop with
  an error or the callee reverts. -/
  | frame (ops : List (SstoreOp Address Hash)) (reverts : Bool)

/-- What an `SSTORE` charges: its slot, its cost and the change it made to the refund
counter. -/
structure Charge (Address Hash : Type) where
  addr : Address
  key : Hash
  gas : UInt64
  refund : Int

/-- The cost of a charge less its refund. -/
def Charge.net (c : Charge Address Hash) : Int := (c.gas.toNat : Int) - c.refund

/-- Whether a charge is for the slot `key` of `a`. -/
def Charge.onSlot (a : Address) (key : Hash) (c : Charge Address Hash) : Bool :=
  decide (c.addr = a ∧ c.key = key)

/-- What a run leaves: the state, the charges of the writes that stay, and whether the frame
stopped with an error. -/
structure SstoreOutcome (Address Hash : Type) where
  state : StateDB Address Hash
  charges : List (Charge Address Hash)
  stopped : Bool

mutual

/-- One operation; `none` is a panic. -/
def runSstoreOp (g : SstoreGasFunc Address Hash) (env : Env Address Hash) :
    SstoreOp Address Hash → StateDB Address Hash → Option (SstoreOutcome Address Hash)
  | .sstore addr gas key value, s =>
    match g s addr gas key value with
    | none => none
    | some (.error _) => some ⟨s, [], true⟩
    | some (.ok (cost, s₁)) =>
      -- `contract.UseGas(cost)` fails: out of gas, after the refund changes
      if gas < cost then some ⟨s₁, [], true⟩
      else some ⟨s₁.SetState env addr key value,
        [⟨addr, key, cost, (s₁.refund.toNat : Int) - s.refund.toNat⟩], false⟩
  | .halt, s => some ⟨s, [], true⟩
  | .frame ops reverts, s =>
    let (id, s₁) := s.Snapshot
    (runSstoreOps g env ops s₁).bind fun r =>
      if reverts || r.stopped then (r.state.RevertToSnapshot env id).map fun s₂ => ⟨s₂, [], false⟩
      else some ⟨r.state, r.charges, false⟩

/-- Operations one after another, up to the first that stops the frame. -/
def runSstoreOps (g : SstoreGasFunc Address Hash) (env : Env Address Hash) :
    List (SstoreOp Address Hash) → StateDB Address Hash → Option (SstoreOutcome Address Hash)
  | [], s => some ⟨s, [], false⟩
  | op :: ops, s =>
    (runSstoreOp g env op s).bind fun r =>
      if r.stopped then some r
      else (runSstoreOps g env ops r.state).map fun r' =>
        ⟨r'.state, r.charges ++ r'.charges, r'.stopped⟩

end

mutual

/-- The slots the `SSTORE`s of an operation write, one for each. -/
def SstoreOp.slots : SstoreOp Address Hash → List (Address × Hash)
  | .sstore addr _ key _ => [(addr, key)]
  | .halt => []
  | .frame ops _ => SstoreOp.slotsList ops

/-- The slots of operations one after another. -/
def SstoreOp.slotsList : List (SstoreOp Address Hash) → List (Address × Hash)
  | [] => []
  | op :: ops => op.slots ++ SstoreOp.slotsList ops

end

/-! ## What a run keeps -/

/-- The refunds the slots of `S` owe back. -/
def refundDebt (p : NetGasTable) (env : Env Address Hash) (S : Finset (Address × Hash))
    (s : StateDB Address Hash) : Nat :=
  ∑ σ ∈ S, debtOf p (s.GetCommittedState env σ.1 σ.2) (s.GetState env σ.1 σ.2)

/-- What every state of a run that goes on keeps: the journal's invariant, an empty trie that
holds nothing, and a refund counter that covers what the slots of `S` owe back. -/
structure Covered (p : NetGasTable) (env : Env Address Hash) (S : Finset (Address × Hash))
    (s : StateDB Address Hash) : Prop where
  wf : s.Wf env
  empty : ∀ key, s.db.storage env.emptyRoot key = 0
  debt : refundDebt p env S s ≤ s.refund.toNat

/-- What the charges of a run say: the committed values stay, the refund counter moves by the
charges' refunds, and at each slot the charges cost beyond their refunds a dirty write each and
the step of `netCost` from where the slot was to where it is. -/
structure Telescopes (p : NetGasTable) (env : Env Address Hash) (s t : StateDB Address Hash)
    (charges : List (Charge Address Hash)) : Prop where
  committed : ∀ a key, t.GetCommittedState env a key = s.GetCommittedState env a key
  refund : (t.refund.toNat : Int) = s.refund.toNat + (charges.map Charge.refund).sum
  slot : ∀ a key, ((charges.filter (Charge.onSlot a key)).map Charge.net).sum =
    (charges.filter (Charge.onSlot a key)).length * (p.dirty.toNat : Int) +
      netCost p (s.GetCommittedState env a key) (t.GetState env a key) -
        netCost p (s.GetCommittedState env a key) (s.GetState env a key)

/-- Two states that read the same to the metering. -/
structure SameReads (env : Env Address Hash) (s t : StateDB Address Hash) : Prop where
  state : ∀ a key, t.GetState env a key = s.GetState env a key
  committed : ∀ a key, t.GetCommittedState env a key = s.GetCommittedState env a key
  refund : t.refund = s.refund

section Invariants

variable {p : NetGasTable} {env : Env Address Hash} {S : Finset (Address × Hash)}
  {s t u : StateDB Address Hash}

omit [DecidableEq Address] in
/-- A state with the view of another reads the same. -/
theorem SameReads.of_view (h : t.view env = s.view env) : SameReads env s t := by
  have hobs : t.observe env = s.observe env := by
    rw [observe_eq_view, observe_eq_view, h]
  exact ⟨fun a key => congrFun (congrFun (congrArg Observation.state hobs) a) key,
    fun a key => congrFun (congrFun (congrArg Observation.committedState hobs) a) key,
    congrArg Observation.refund hobs⟩

omit [DecidableEq Address] in
theorem refundDebt_congr (h : SameReads env s t) : refundDebt p env S t = refundDebt p env S s := by
  unfold refundDebt
  simp only [h.state, h.committed]

theorem Telescopes.of_sameReads (h : SameReads env s t) : Telescopes p env s t [] where
  committed := h.committed
  refund := by rw [h.refund]; simp
  slot a key := by
    rw [h.state]
    simp

theorem Telescopes.trans {T₁ T₂ : List (Charge Address Hash)} (h₁ : Telescopes p env s t T₁)
    (h₂ : Telescopes p env t u T₂) : Telescopes p env s u (T₁ ++ T₂) where
  committed a key := (h₂.committed a key).trans (h₁.committed a key)
  refund := by
    rw [h₂.refund, h₁.refund, List.map_append, List.sum_append]
    ring
  slot a key := by
    rw [List.filter_append, List.map_append, List.sum_append, h₁.slot, h₂.slot, h₁.committed,
      List.length_append]
    push_cast
    ring

/-- A write to a slot of `S` changes the debt by the slot's own. -/
theorem refundDebt_write {a : Address} {key : Hash} (hσ : (a, key) ∈ S)
    (hstate : ∀ a' k, ¬ (a' = a ∧ k = key) → t.GetState env a' k = s.GetState env a' k)
    (hcom : ∀ a' k, t.GetCommittedState env a' k = s.GetCommittedState env a' k) :
    refundDebt p env S t + debtOf p (s.GetCommittedState env a key) (s.GetState env a key) =
      refundDebt p env S s + debtOf p (s.GetCommittedState env a key) (t.GetState env a key) := by
  unfold refundDebt
  rw [← Finset.add_sum_erase S _ hσ, ← Finset.add_sum_erase S _ hσ]
  have hrest : ∑ σ ∈ S.erase (a, key),
        debtOf p (t.GetCommittedState env σ.1 σ.2) (t.GetState env σ.1 σ.2) =
      ∑ σ ∈ S.erase (a, key), debtOf p (s.GetCommittedState env σ.1 σ.2) (s.GetState env σ.1 σ.2) := by
    apply Finset.sum_congr rfl
    intro σ hσ'
    have hne : ¬ (σ.1 = a ∧ σ.2 = key) := fun h => Finset.ne_of_mem_erase hσ' (Prod.ext h.1 h.2)
    rw [hstate σ.1 σ.2 hne, hcom]
  rw [hrest, hcom]
  ring

end Invariants

/-! ## Every run -/

section Runs

variable {g : SstoreGasFunc Address Hash} {p : NetGasTable} {env : Env Address Hash}
  {S : Finset (Address × Hash)}

/-- What a run of `n` writes from `s` to the outcome `r` does: the journal can take it back, the
refund counter grows by at most `init` a write, and a run that goes on keeps the debt covered
and telescopes. -/
structure RunSpec (p : NetGasTable) (env : Env Address Hash) (S : Finset (Address × Hash))
    (s : StateDB Address Hash) (n : Nat) (r : SstoreOutcome Address Hash) : Prop where
  undoes : Undoes env s r.state
  bound : r.state.refund.toNat ≤ s.refund.toNat + p.init.toNat * n
  going : r.stopped = false → Covered p env S r.state ∧ Telescopes p env s r.state r.charges

/-- A run that stops where it started. -/
theorem RunSpec.stop {s : StateDB Address Hash} (hwf : s.Wf env) (n : Nat) :
    RunSpec p env S s n ⟨s, [], true⟩ :=
  ⟨Undoes.refl hwf, Nat.le_add_right _ _, fun h => Bool.noConfusion h⟩

omit [Zero Hash] in
/-- The charge of a write at its own slot and at every other. -/
theorem charge_onSlot (addr a : Address) (key k : Hash) (cost : UInt64) (δ : Int) :
    ([(⟨addr, key, cost, δ⟩ : Charge Address Hash)].filter (Charge.onSlot a k)) =
      if a = addr ∧ k = key then [⟨addr, key, cost, δ⟩] else [] := by
  by_cases hslot : a = addr ∧ k = key
  · obtain ⟨rfl, rfl⟩ := hslot
    simp [Charge.onSlot]
  · have hne : ¬ (addr = a ∧ key = k) := fun h => hslot ⟨h.1.symm, h.2.symm⟩
    simp only [List.filter_cons, List.filter_nil, Charge.onSlot, decide_eq_true_eq, if_neg hne,
      if_neg hslot]

/-- **One `SSTORE`**: it never panics on a covered state, and a write that is made keeps the
debt covered and telescopes at its slot. -/
theorem sstore_spec (hnet : NetMetered g p env) (hp : p.Lawful) {s : StateDB Address Hash}
    {addr : Address} {gas : UInt64} {key value : Hash} (hσ : (addr, key) ∈ S)
    (hcov : Covered p env S s) (hroom : s.refund.toNat + p.init.toNat < 2 ^ 64) :
    ∃ r, runSstoreOp g env (.sstore addr gas key value) s = some r ∧ RunSpec p env S s 1 r := by
  -- the slot's own debt is part of what the counter covers
  have hdebt : debtOf p (s.GetCommittedState env addr key) (s.GetState env addr key) ≤
      s.refund.toNat :=
    calc debtOf p (s.GetCommittedState env addr key) (s.GetState env addr key)
        ≤ ∑ σ ∈ S, debtOf p (s.GetCommittedState env σ.1 σ.2) (s.GetState env σ.1 σ.2) :=
          Finset.single_le_sum
            (fun σ _ => Nat.zero_le (debtOf p (s.GetCommittedState env σ.1 σ.2) (s.GetState env σ.1 σ.2))) hσ
      _ = refundDebt p env S s := rfl
      _ ≤ s.refund.toNat := hcov.debt
  rcases hnet s addr gas key value with hg | ⟨e, hg⟩
  case inr =>
    -- the sentry: an error that leaves the state alone
    have hrun : runSstoreOp g env (.sstore addr gas key value) s = some ⟨s, [], true⟩ := by
      simp only [runSstoreOp, hg]
    exact ⟨_, hrun, RunSpec.stop hcov.wf 1⟩
  case inl =>
  generalize ho : s.GetCommittedState env addr key = o at hdebt
  generalize hc : s.GetState env addr key = c at hdebt
  obtain ⟨t, ht, hstep, hr⟩ := netSstoreGas_spec hp hcov.wf addr key value hroom (ho ▸ hc ▸ hdebt)
  rw [ho, hc] at ht hr
  have hle := netRefund_le_init hp o c value
  have hbound : t.refund.toNat ≤ s.refund.toNat + p.init.toNat * 1 := by omega
  have hrun : runSstoreOp g env (.sstore addr gas key value) s =
      if gas < netGas p o c value then some ⟨t, [], true⟩
      else some ⟨t.SetState env addr key value,
        [⟨addr, key, netGas p o c value, (t.refund.toNat : Int) - s.refund.toNat⟩], false⟩ := by
    simp only [runSstoreOp, hg, ht, Option.map_some]
  rw [hrun]
  by_cases hgas : gas < netGas p o c value
  -- out of gas: the frame stops after the refund changes
  · rw [if_pos hgas]
    exact ⟨_, rfl, hstep.undoes, hbound, fun h => Bool.noConfusion h⟩
  rw [if_neg hgas]
  -- the write, on the state the refund changes left
  have hwf₁ := hstep.undoes.wf
  have hempty₁ : ∀ k, t.db.storage env.emptyRoot k = 0 := by
    rw [hstep.undoes.db]
    exact hcov.empty
  have hset := StateDB.SetState_undoes hwf₁ addr key value
  have hreads := SetState_reads hwf₁ hempty₁ addr key value
  have hstate : ∀ a' k, ¬ (a' = addr ∧ k = key) →
      (t.SetState env addr key value).GetState env a' k = s.GetState env a' k := by
    intro a' k hne
    rw [(hreads a' k).1, if_neg hne, hstep.GetState]
  have hcom : ∀ a' k, (t.SetState env addr key value).GetCommittedState env a' k =
      s.GetCommittedState env a' k := by
    intro a' k
    rw [(hreads a' k).2.1, hstep.GetCommittedState]
  have hwritten : (t.SetState env addr key value).GetState env addr key = value := by
    rw [(hreads addr key).1, if_pos ⟨rfl, rfl⟩]
  have hrefund := (hreads addr key).2.2
  refine ⟨_, rfl, hstep.undoes.trans hset, by rw [hrefund]; exact hbound, fun _ => ⟨?_, ?_⟩⟩
  · -- the debt moves by the slot's own, which the refund covers
    dsimp only
    have hw := refundDebt_write (p := p) hσ hstate hcom
    rw [hwritten, ho, hc] at hw
    have hcovers := debtOf_sub_le_netRefund p o c value
    refine ⟨hset.wf, by rw [hset.db]; exact hempty₁, ?_⟩
    rw [hrefund]
    have hd := hcov.debt
    omega
  · dsimp only
    refine ⟨hcom, by rw [hrefund]; simp, fun a' k => ?_⟩
    rw [charge_onSlot]
    by_cases hslot : a' = addr ∧ k = key
    -- the written slot: its cost less its refund is one step of `netCost`
    · obtain ⟨rfl, rfl⟩ := hslot
      rw [if_pos ⟨rfl, rfl⟩, hwritten, ho, hc]
      simp only [List.map_cons, List.map_nil, List.sum_cons, List.sum_nil, Charge.net,
        List.length_singleton, Nat.cast_one, add_zero, one_mul]
      have hnet := netGas_sub_netRefund hp o c value
      omega
    -- every other slot: no charge and no change
    · rw [if_neg hslot, hstate a' k hslot]
      simp

/-- A call hands back to its caller: it never stops the caller's frame. -/
theorem runSstoreOp_frame_stopped {ops : List (SstoreOp Address Hash)} {reverts : Bool}
    {s : StateDB Address Hash} {r : SstoreOutcome Address Hash}
    (h : runSstoreOp g env (.frame ops reverts) s = some r) : r.stopped = false := by
  simp only [runSstoreOp, Option.bind_eq_some_iff] at h
  obtain ⟨r₁, -, hend⟩ := h
  split_ifs at hend
  · obtain ⟨s₂, -, rfl⟩ := Option.map_eq_some_iff.mp hend
    rfl
  · cases hend
    rfl

mutual

/-- **Every run of an operation**, by structural recursion over the nesting of frames: no panic
from a covered state with room for `init` a write, and `RunSpec`. -/
theorem runSstoreOp_spec (hnet : NetMetered g p env) (hp : p.Lawful) :
    ∀ (op : SstoreOp Address Hash) (s : StateDB Address Hash), Covered p env S s →
      (∀ σ ∈ op.slots, σ ∈ S) → s.refund.toNat + p.init.toNat * op.slots.length < 2 ^ 64 →
      ∃ r, runSstoreOp g env op s = some r ∧ RunSpec p env S s op.slots.length r
  | .sstore addr gas key value, s, hcov, hslots, hroom =>
    sstore_spec hnet hp (hslots _ (List.mem_singleton_self _)) hcov (by simpa [SstoreOp.slots] using hroom)
  | .halt, s, hcov, _, _ => ⟨_, rfl, RunSpec.stop hcov.wf _⟩
  | .frame ops reverts, s, hcov, hslots, hroom => by
    -- the snapshot changes nothing the metering reads
    have hsnap := StateDB.Snapshot_undoes hcov.wf
    have hcov₁ : Covered p env S s.Snapshot.2 := ⟨hsnap.wf, hcov.empty, hcov.debt⟩
    obtain ⟨r, hr, hspec⟩ := runSstoreOps_spec hnet hp ops s.Snapshot.2 hcov₁ hslots hroom
    simp only [runSstoreOp, hr, Option.bind_some]
    by_cases hback : (reverts || r.stopped) = true
    -- a frame that fails is taken back: nothing of it is left to charge
    · obtain ⟨s₃, hrev, hund, -, hview⟩ := StateDB.revertToSnapshot_of_undoes hcov.wf hspec.undoes
      have hsame := SameReads.of_view hview
      rw [if_pos hback, hrev, Option.map_some]
      refine ⟨_, rfl, hund, by rw [hsame.refund]; exact Nat.le_add_right _ _, fun _ => ⟨?_, ?_⟩⟩
      · refine ⟨hund.wf, by rw [hund.db]; exact hcov.empty, ?_⟩
        rw [refundDebt_congr hsame, hsame.refund]
        exact hcov.debt
      · exact Telescopes.of_sameReads hsame
    -- a frame that succeeds keeps its writes and their charges
    · rw [if_neg hback]
      have hgo : r.stopped = false := by simp_all
      obtain ⟨hcov₂, htel⟩ := hspec.going hgo
      have hsame : SameReads env s s.Snapshot.2 := ⟨fun _ _ => rfl, fun _ _ => rfl, rfl⟩
      exact ⟨_, rfl, hsnap.trans hspec.undoes, hspec.bound,
        fun _ => ⟨hcov₂, (Telescopes.of_sameReads hsame).trans htel⟩⟩

/-- **Every run of operations one after another.** -/
theorem runSstoreOps_spec (hnet : NetMetered g p env) (hp : p.Lawful) :
    ∀ (ops : List (SstoreOp Address Hash)) (s : StateDB Address Hash), Covered p env S s →
      (∀ σ ∈ SstoreOp.slotsList ops, σ ∈ S) →
      s.refund.toNat + p.init.toNat * (SstoreOp.slotsList ops).length < 2 ^ 64 →
      ∃ r, runSstoreOps g env ops s = some r ∧ RunSpec p env S s (SstoreOp.slotsList ops).length r
  | [], s, hcov, _, _ =>
    ⟨_, rfl, Undoes.refl hcov.wf, Nat.le_add_right _ _,
      fun _ => ⟨hcov, Telescopes.of_sameReads ⟨fun _ _ => rfl, fun _ _ => rfl, rfl⟩⟩⟩
  | op :: ops, s, hcov, hslots, hroom => by
    have hlen : p.init.toNat * (SstoreOp.slotsList (op :: ops)).length =
        p.init.toNat * op.slots.length + p.init.toNat * (SstoreOp.slotsList ops).length := by
      rw [SstoreOp.slotsList, List.length_append, Nat.mul_add]
    have hslots₁ : ∀ σ ∈ op.slots, σ ∈ S := fun σ h =>
      hslots σ (List.mem_append_left _ h)
    have hslots₂ : ∀ σ ∈ SstoreOp.slotsList ops, σ ∈ S := fun σ h =>
      hslots σ (List.mem_append_right _ h)
    obtain ⟨r, hr, hspec⟩ := runSstoreOp_spec hnet hp op s hcov hslots₁ (by omega)
    have hb₁ := hspec.bound
    cases hst : r.stopped with
    | true =>
      -- the frame stops here: the rest is not run
      have hrun : runSstoreOps g env (op :: ops) s = some r := by
        simp only [runSstoreOps, hr, Option.bind_some, hst, if_true]
      exact ⟨r, hrun, hspec.undoes, by omega, fun h => Bool.noConfusion (hst.symm.trans h)⟩
    | false =>
      obtain ⟨hcov₁, htel₁⟩ := hspec.going hst
      obtain ⟨r', hr', hspec'⟩ := runSstoreOps_spec hnet hp ops r.state hcov₁ hslots₂ (by omega)
      have hb₂ := hspec'.bound
      have hrun : runSstoreOps g env (op :: ops) s =
          some ⟨r'.state, r.charges ++ r'.charges, r'.stopped⟩ := by
        simp only [runSstoreOps, hr, Option.bind_some, hst, Bool.false_eq_true, if_false, hr',
          Option.map_some]
      refine ⟨_, hrun, hspec.undoes.trans hspec'.undoes, by dsimp only; omega, fun h => ?_⟩
      obtain ⟨hcov₂, htel₂⟩ := hspec'.going h
      exact ⟨hcov₂, htel₁.trans htel₂⟩

end

end Runs

/-! ## Net metering of a transaction -/

section Transaction

variable {p : NetGasTable} {env : Env Address Hash} {S : Finset (Address × Hash)}
  {s : StateDB Address Hash}

omit [DecidableEq Address] in
/-- A slot that holds its original value has cost a dirty write. -/
@[simp] theorem netCost_self (o : Hash) : netCost p o o = p.dirty.toNat := by
  simp [netCost]

omit [DecidableEq Address] in
/-- Where every slot holds its original value, as `Finalise` leaves the state between
transactions, no slot owes a refund back. -/
theorem refundDebt_clean (hclean : ∀ a key, s.GetState env a key = s.GetCommittedState env a key) :
    refundDebt p env S s = 0 := by
  unfold refundDebt
  apply Finset.sum_eq_zero
  intro σ _
  rw [hclean σ.1 σ.2]
  simp [debtOf]

omit [DecidableEq Address] in
/-- A state with nothing loaded is clean: every slot reads its committed value. -/
theorem clean_of_unloaded (h : ∀ a, s.stateObjects a = none) (a : Address) (key : Hash) :
    s.GetState env a key = s.GetCommittedState env a key := by
  simp only [StateDB.GetState, StateDB.GetCommittedState, StateDB.getStateObject,
    StateDB.getDeletedStateObject, h]
  cases s.db.account a with
  | none => rfl
  | some acct => rfl

omit [DecidableEq Hash] [Zero Hash] in
/-- The journal's invariant does not read the refund counter. -/
theorem wf_withRefund (h : s.Wf env) (x : UInt64) :
    ({ s with refund := x } : StateDB Address Hash).Wf env :=
  ⟨h.keyed, h.revisions, h.dirties⟩

end Transaction

/-- **Net metering of a transaction.** Under either net-metering rule, a transaction (its
operations, run as the frame of its call) from a state where every slot holds its original
value never makes `SubRefund` panic while the refund counter has room for `init` a write; its
charges move the counter by their refunds, and the `k` writes that stay at a slot cost beyond
their refunds `(k - 1)` dirty writes and `netCost` from the slot's original value to its value
at the end (with no write, both sides are nothing). -/
theorem sstore_net_metering (rule : NetRule) (env : Env Address Hash) (s : StateDB Address Hash)
    (ops : List (SstoreOp Address Hash)) (reverts : Bool) (hwf : s.Wf env)
    (hclean : ∀ a key, s.GetState env a key = s.GetCommittedState env a key)
    (hempty : ∀ key, s.db.storage env.emptyRoot key = 0)
    (hroom : s.refund.toNat + rule.table.init.toNat * (SstoreOp.slotsList ops).length < 2 ^ 64) :
    ∃ r, runSstoreOp (rule.gasFunc env) env (.frame ops reverts) s = some r ∧
      (r.state.refund.toNat : Int) = s.refund.toNat + (r.charges.map Charge.refund).sum ∧
      ∀ a key, ((r.charges.filter (Charge.onSlot a key)).map Charge.net).sum =
        ((r.charges.filter (Charge.onSlot a key)).length - 1 : Int) * rule.table.dirty.toNat +
          netCost rule.table (s.GetCommittedState env a key) (r.state.GetState env a key) := by
  -- every slot the transaction writes, each owing nothing at the start
  let S := (SstoreOp.slotsList ops).toFinset
  have hcov : Covered rule.table env S s :=
    ⟨hwf, hempty, by rw [refundDebt_clean hclean]; exact Nat.zero_le _⟩
  obtain ⟨r, hr, hspec⟩ := runSstoreOp_spec (rule.netMetered env) rule.lawful (.frame ops reverts)
    s hcov (fun σ h => List.mem_toFinset.mpr h) hroom
  obtain ⟨-, htel⟩ := hspec.going (runSstoreOp_frame_stopped hr)
  refine ⟨r, hr, htel.refund, fun a key => ?_⟩
  rw [htel.slot, hclean a key, netCost_self]
  ring

/-- One write of a fresh slot under EIP-2200, from a state with nothing loaded. -/
theorem sstore_net_metering_fresh_write :
    (New (⟨fun _ => none, fun _ _ => 0, fun _ => []⟩ : Database Nat Nat)).Wf ⟨fun _ => 0, 0, 3⟩ ∧
      (∀ a key, (New (⟨fun _ => none, fun _ _ => 0, fun _ => []⟩ : Database Nat Nat)).GetState
          ⟨fun _ => 0, 0, 3⟩ a key =
        (New (⟨fun _ => none, fun _ _ => 0, fun _ => []⟩ : Database Nat Nat)).GetCommittedState
          ⟨fun _ => 0, 0, 3⟩ a key) ∧
      (∀ key : Nat, (New (⟨fun _ => none, fun _ _ => 0, fun _ => []⟩ : Database Nat Nat)).db.storage
        0 key = 0) ∧
      (New (⟨fun _ => none, fun _ _ => 0, fun _ => []⟩ : Database Nat Nat)).refund.toNat +
          NetRule.eip2200.table.init.toNat *
            (SstoreOp.slotsList [SstoreOp.sstore (1 : Nat) 10000 (5 : Nat) 7]).length < 2 ^ 64 ∧
      ∃ r, runSstoreOp (NetRule.eip2200.gasFunc ⟨fun _ => 0, 0, 3⟩) ⟨fun _ => 0, 0, 3⟩
          (.frame [SstoreOp.sstore (1 : Nat) 10000 (5 : Nat) 7] false)
          (New (⟨fun _ => none, fun _ _ => 0, fun _ => []⟩ : Database Nat Nat)) = some r ∧
        (r.state.refund.toNat : Int) = (New (⟨fun _ => none, fun _ _ => 0, fun _ => []⟩ :
          Database Nat Nat)).refund.toNat + (r.charges.map Charge.refund).sum ∧
        ∀ a key, ((r.charges.filter (Charge.onSlot a key)).map Charge.net).sum =
          ((r.charges.filter (Charge.onSlot a key)).length - 1 : Int) *
              NetRule.eip2200.table.dirty.toNat +
            netCost NetRule.eip2200.table
              ((New (⟨fun _ => none, fun _ _ => 0, fun _ => []⟩ : Database Nat Nat)).GetCommittedState
                ⟨fun _ => 0, 0, 3⟩ a key)
              (r.state.GetState ⟨fun _ => 0, 0, 3⟩ a key) :=
  ⟨New_wf _ _, fun _ _ => rfl, fun _ => rfl, by decide,
    sstore_net_metering .eip2200 _ _ _ _ (New_wf _ _) (fun _ _ => rfl) (fun _ => rfl) (by decide)⟩

/-- A refund counter near the top wraps: deleting a slot adds its refund past `2 ^ 64`, and
writing the slot back takes the refund from a counter that no longer holds it, so `SubRefund`
panics. The state is clean and has nothing loaded; only its counter is large. -/
theorem sstore_refund_wraps :
    (∀ a key, StateDB.GetState ⟨fun _ => 0, 0, 3⟩
        { New (⟨fun a => if a = 1 then some ⟨0, 0, 7, 0⟩ else none,
            fun root k => if root = 7 ∧ k = 5 then 9 else 0, fun _ => []⟩ : Database Nat Nat) with
          refund := 2 ^ 64 - 1 } a key =
      StateDB.GetCommittedState ⟨fun _ => 0, 0, 3⟩
        { New (⟨fun a => if a = 1 then some ⟨0, 0, 7, 0⟩ else none,
            fun root k => if root = 7 ∧ k = 5 then 9 else 0, fun _ => []⟩ : Database Nat Nat) with
          refund := 2 ^ 64 - 1 } a key) ∧
    StateDB.Wf ⟨fun _ => 0, 0, 3⟩
      { New (⟨fun a => if a = 1 then some ⟨0, 0, 7, 0⟩ else none,
          fun root k => if root = 7 ∧ k = 5 then 9 else 0, fun _ => []⟩ : Database Nat Nat) with
        refund := 2 ^ 64 - 1 } ∧
    runSstoreOp (NetRule.eip2200.gasFunc ⟨fun _ => 0, 0, 3⟩) ⟨fun _ => 0, 0, 3⟩
      (.frame [SstoreOp.sstore (1 : Nat) 100000 (5 : Nat) 0, .sstore 1 100000 5 9] false)
      { New (⟨fun a => if a = 1 then some ⟨0, 0, 7, 0⟩ else none,
          fun root k => if root = 7 ∧ k = 5 then 9 else 0, fun _ => []⟩ : Database Nat Nat) with
        refund := 2 ^ 64 - 1 } = none :=
  ⟨clean_of_unloaded (fun _ => rfl), wf_withRefund (New_wf _ _) _,
    Option.isNone_iff_eq_none.mp (by decide +kernel)⟩

end GoMetadium.Vm
