import Mathlib

set_option autoImplicit false

/-! # Block rewards of Metadium (`metadium/admin.go`)

In Metadium mode the block reward and the fees of a block are one amount, split by
`distributeRewards` between the governance members, the reward pool account and the
maintenance account:

* 45% (rounded down) goes to the members, 10% (rounded down) to maintenance, the rest to
  the pool;
* the share of an absent recipient is redirected, to the members when there are any, else
  to the pool or to maintenance;
* the member share is split evenly; the remainder of that division is handed out one unit
  at a time, starting at the member `six` and wrapping around.

`calculateRewards` picks `six` (the block number modulo the number of members), allocates
one slot per recipient and calls `distributeRewards` on the block reward plus the fees.

Amounts are `*big.Int` in the source and `Int` here. `big.Int.Div` is Euclidean division,
which is `Int./` in Lean; the divisors here are positive, so both round down. A nil
`*big.Int`, the zero value of a reward slot, is `none`.
-/

namespace GoMetadium.Rewards

/-! ## Data -/

/-- A governance member (`metaMember`). `distributeRewards` reads only its address. -/
structure MetaMember (A : Type) where
  addr : A
  deriving DecidableEq, Repr

/-- One slot of the rewards slice (`reward`). -/
structure Reward (A : Type) where
  addr : A
  reward : Option Int
  deriving DecidableEq, Repr

variable {A : Type}

/-- `rewards[six].Reward.Add(rewards[six].Reward, v1)`. -/
def Reward.addOne (r : Reward A) : Reward A := { r with reward := r.reward.map (· + 1) }

/-- `k` applications of `Reward.addOne`. -/
def Reward.addN (k : Nat) (r : Reward A) : Reward A := { r with reward := r.reward.map (· + k) }

/-- The reward of a slot as a number; a nil reward counts as zero. -/
def Reward.amount (r : Reward A) : Int := r.reward.getD 0

/-- The sum of the rewards of a slice. -/
def rewardSum (rs : List (Reward A)) : Int := (rs.map Reward.amount).sum

/-! ## The three shares -/

/-- The three amounts `distributeRewards` keeps: `minerAmount`, `maintAmount`,
`poolAmount`. -/
structure Shares where
  miner : Int
  maint : Int
  pool : Int
  deriving DecidableEq, Repr

/-- The shares before redirection: 45% and 10% rounded down, the pool gets the rest. -/
def initialShares (amount : Int) : Shares :=
  { miner := amount * 45 / 100
    maint := amount * 10 / 100
    pool := amount - amount * 45 / 100 - amount * 10 / 100 }

/-- The `n == 0` block: without members the miner share goes to the pool, or else to
maintenance. -/
def redirectMiner (n : Nat) (rewardPoolAccount maintenanceAccount : Option A)
    (s : Shares) : Shares :=
  if n = 0 then
    if rewardPoolAccount.isSome then { s with pool := s.pool + s.miner }
    else if maintenanceAccount.isSome then { s with maint := s.maint + s.miner }
    else s
  else s

/-- The `rewardPoolAccount == nil` block: the pool share goes to the members, or else to
maintenance. -/
def redirectPool (n : Nat) (rewardPoolAccount maintenanceAccount : Option A)
    (s : Shares) : Shares :=
  if rewardPoolAccount.isNone then
    if n ≠ 0 then { s with miner := s.miner + s.pool }
    else if maintenanceAccount.isSome then { s with maint := s.maint + s.pool }
    else s
  else s

/-- The `maintenanceAccount == nil` block: the maintenance share goes to the members, or
else to the pool. -/
def redirectMaint (n : Nat) (rewardPoolAccount maintenanceAccount : Option A)
    (s : Shares) : Shares :=
  if maintenanceAccount.isNone then
    if n ≠ 0 then { s with miner := s.miner + s.maint }
    else if rewardPoolAccount.isSome then { s with pool := s.pool + s.maint }
    else s
  else s

/-- The shares after the three redirection blocks of `distributeRewards`, in source
order. -/
def splitAmount (n : Nat) (rewardPoolAccount maintenanceAccount : Option A)
    (amount : Int) : Shares :=
  redirectMaint n rewardPoolAccount maintenanceAccount
    (redirectPool n rewardPoolAccount maintenanceAccount
      (redirectMiner n rewardPoolAccount maintenanceAccount (initialShares amount)))

/-! ## Filling the slots -/

/-- The first member loop: slot `i` gets `members[i].Addr` and a copy of `d`. -/
def fillMembers : List (MetaMember A) → Int → List (Reward A) → List (Reward A)
  | [], _, rs => rs
  | _ :: _, _, [] => []
  | m :: ms, d, _ :: rs => ⟨m.addr, some d⟩ :: fillMembers ms d rs

/-- The remainder loop `for i := 0; i < n && b.Cmp(v0) > 0; i++`: `fuel` is the number
of iterations left (`n - i`), `six` the slot that gets the next unit, `b` the units left. -/
def addRemainder (n : Nat) : Nat → Nat → Int → List (Reward A) → List (Reward A)
  | 0, _, _, rs => rs
  | fuel + 1, six, b, rs =>
      if 0 < b then addRemainder n fuel ((six + 1) % n) (b - 1) (rs.modify six Reward.addOne)
      else rs

/-- The two account slots after the members: the pool at index `n` if present, then
maintenance at the next index if present. -/
def placeAccounts (n : Nat) (rewardPoolAccount maintenanceAccount : Option A) (s : Shares)
    (rs : List (Reward A)) : List (Reward A) :=
  let rs' :=
    match rewardPoolAccount with
    | some a => rs.set n ⟨a, some s.pool⟩
    | none => rs
  let n' := if rewardPoolAccount.isSome then n + 1 else n
  match maintenanceAccount with
  | some a => rs'.set n' ⟨a, some s.maint⟩
  | none => rs'

/-- `distributeRewards`: split `amount` and write the rewards into the slots of
`rewards`. -/
def distributeRewards (six : Nat) (rewardPoolAccount maintenanceAccount : Option A)
    (members : List (MetaMember A)) (rewards : List (Reward A)) (amount : Int) :
    List (Reward A) :=
  let n := members.length
  let s := splitAmount n rewardPoolAccount maintenanceAccount amount
  let rewards :=
    if 0 < n then
      let d := s.miner / n
      addRemainder n n six (s.miner - d * n) (fillMembers members d rewards)
    else rewards
  placeAccounts n rewardPoolAccount maintenanceAccount s rewards

/-- The number of reward slots `calculateRewards` allocates: one per member, one for each
account that is set. -/
def slotCount (n : Nat) (rewardPoolAccount maintenanceAccount : Option A) : Nat :=
  n + (if rewardPoolAccount.isSome then 1 else 0) + (if maintenanceAccount.isSome then 1 else 0)

/-- `metaAdmin.calculateRewards`, up to the JSON encoding of the slots. `accounts` is the
result of `getRewardAccounts` (a governance contract call, outside this model); on its
error everything goes to the coinbase, which the caller does. The block number `num` is
non-negative; `blocksPer` is the positive configuration value `ma.blocksPer`. The result is
the coinbase (the member whose turn it is) and the filled slots. -/
def calculateRewards [Inhabited A] (blocksPer : Nat)
    (accounts : Except String (Option A × Option A × List (MetaMember A)))
    (num : Nat) (blockReward fees : Int) : Except String (Option A × List (Reward A)) :=
  match accounts with
  | .error e => .error e
  | .ok (rewardPoolAccount, maintenanceAccount, members) =>
    if rewardPoolAccount.isNone ∧ maintenanceAccount.isNone ∧ members.length = 0 then
      .error "Not initialized"
    else
      let coinbase := (members[num / blocksPer % members.length]?).map MetaMember.addr
      let n := slotCount members.length rewardPoolAccount maintenanceAccount
      let six := if 0 < members.length then num % members.length else 0
      let rr : List (Reward A) := List.replicate n ⟨default, none⟩
      .ok (coinbase, distributeRewards six rewardPoolAccount maintenanceAccount members rr
        (blockReward + fees))

/-! ## The shares add up to the amount -/

/-- Whatever the presence pattern, as long as someone receives, the shares of the
recipients add up to `amount`. -/
theorem splitAmount_total (n : Nat) (p m : Option A) (amount : Int)
    (hrecv : 0 < n ∨ p.isSome ∨ m.isSome) :
    (if 0 < n then (splitAmount n p m amount).miner else 0) +
      (if p.isSome then (splitAmount n p m amount).pool else 0) +
      (if m.isSome then (splitAmount n p m amount).maint else 0) = amount := by
  rcases p with _ | a <;> rcases m with _ | b <;> by_cases hn : n = 0 <;>
    simp_all [splitAmount, redirectMiner, redirectPool, redirectMaint, initialShares,
      Nat.pos_iff_ne_zero] <;> omega

/-- With members, the member share is 45% plus the shares of the absent accounts. -/
theorem splitAmount_miner {n : Nat} (hn : 0 < n) (p m : Option A) (amount : Int) :
    (splitAmount n p m amount).miner =
      amount * 45 / 100 +
        (if p.isNone then amount - amount * 45 / 100 - amount * 10 / 100 else 0) +
        (if m.isNone then amount * 10 / 100 else 0) := by
  have hn' : n ≠ 0 := by omega
  rcases p with _ | a <;> rcases m with _ | b <;>
    simp [splitAmount, redirectMiner, redirectPool, redirectMaint, initialShares, hn']

/-! ## Slot arithmetic -/

@[simp] theorem rewardSum_nil : rewardSum ([] : List (Reward A)) = 0 := rfl

@[simp] theorem rewardSum_cons (r : Reward A) (rs : List (Reward A)) :
    rewardSum (r :: rs) = r.amount + rewardSum rs := by
  simp [rewardSum]

@[simp] theorem rewardSum_append (rs rs' : List (Reward A)) :
    rewardSum (rs ++ rs') = rewardSum rs + rewardSum rs' := by
  simp [rewardSum]

@[simp] theorem Reward.addN_zero (r : Reward A) : r.addN 0 = r := by
  rcases r with ⟨a, _ | x⟩ <;> simp [Reward.addN]

@[simp] theorem Reward.addN_zero_eq_id : (Reward.addN 0 : Reward A → Reward A) = id :=
  funext Reward.addN_zero

theorem Reward.addN_addOne (k : Nat) (r : Reward A) : r.addOne.addN k = r.addN (k + 1) := by
  rcases r with ⟨a, _ | x⟩
  · simp [Reward.addN, Reward.addOne]
  · simp only [Reward.addN, Reward.addOne, Option.map_some, Reward.mk.injEq, true_and,
      Option.some.injEq]
    push_cast
    ring

theorem Reward.amount_addOne {r : Reward A} (h : r.reward.isSome) :
    r.addOne.amount = r.amount + 1 := by
  rcases r with ⟨a, _ | x⟩
  · simp at h
  · simp [Reward.addOne, Reward.amount]

/-! ## The remainder loop -/

/-- The slots the remainder loop hands a unit to, in order: `six, six+1, …` modulo `n`,
`c` of them. -/
def cyclicRun (n six c : Nat) : List Nat := (List.range c).map fun t => (six + t) % n

@[simp] theorem cyclicRun_zero (n six : Nat) : cyclicRun n six 0 = [] := rfl

@[simp] theorem cyclicRun_length (n six c : Nat) : (cyclicRun n six c).length = c := by
  simp [cyclicRun]

/-- One more unit: the run starts at `six` and continues from the next slot. -/
theorem cyclicRun_succ {n six : Nat} (c : Nat) (h : six < n) :
    cyclicRun n six (c + 1) = six :: cyclicRun n ((six + 1) % n) c := by
  simp only [cyclicRun, List.range_succ_eq_map, List.map_cons, List.map_map]
  congr 1
  · simp [Nat.mod_eq_of_lt h]
  · apply List.map_congr_left
    intro t _
    simp only [Function.comp_apply, Nat.mod_add_mod]
    congr 1
    omega

theorem cyclicRun_lt {n : Nat} (hn : 0 < n) (six c : Nat) : ∀ j ∈ cyclicRun n six c, j < n := by
  intro j hj
  obtain ⟨t, -, rfl⟩ := List.mem_map.mp hj
  exact Nat.mod_lt _ hn

/-- At most `n` units go to pairwise different slots. -/
theorem cyclicRun_nodup {n c : Nat} (six : Nat) (hc : c ≤ n) : (cyclicRun n six c).Nodup := by
  apply List.Nodup.map_on _ List.nodup_range
  intro t ht t' ht' heq
  have hlt : t < n := by simp at ht; omega
  have hlt' : t' < n := by simp at ht'; omega
  exact Nat.ModEq.eq_of_lt_of_lt (Nat.ModEq.add_left_cancel' six heq) hlt hlt'

theorem count_cyclicRun {n c : Nat} (six : Nat) (hc : c ≤ n) (j : Nat) :
    (cyclicRun n six c).count j = if j ∈ cyclicRun n six c then 1 else 0 := by
  split
  · exact List.count_eq_one_of_mem (cyclicRun_nodup six hc) ‹_›
  · exact List.count_eq_zero_of_not_mem ‹_›

@[simp] theorem addRemainder_length (n : Nat) : ∀ (fuel six : Nat) (b : Int) (rs : List (Reward A)),
    (addRemainder n fuel six b rs).length = rs.length
  | 0, _, _, _ => rfl
  | fuel + 1, six, b, rs => by
    simp only [addRemainder]
    split
    · rw [addRemainder_length n fuel]
      simp
    · rfl

/-- The remainder loop, slot by slot: slot `j` gets one unit for each time `j` occurs in the
run of the slots the loop visits, as many as there are units and iterations. -/
theorem addRemainder_getElem? (n : Nat) : ∀ (fuel six : Nat) (b : Int) (rs : List (Reward A))
    (j : Nat), six < n →
    (addRemainder n fuel six b rs)[j]? =
      rs[j]?.map (Reward.addN ((cyclicRun n six (min fuel b.toNat)).count j))
  | 0, six, b, rs, j, _ => by simp [addRemainder]
  | fuel + 1, six, b, rs, j, hsix => by
    by_cases hb : 0 < b
    · have hn : 0 < n := by omega
      have hc : min (fuel + 1) b.toNat = min fuel (b - 1).toNat + 1 := by omega
      rw [addRemainder, if_pos hb, addRemainder_getElem? n fuel _ _ _ j (Nat.mod_lt _ hn), hc,
        cyclicRun_succ _ hsix, List.getElem?_modify, List.count_cons]
      cases rs[j]? with
      | none => rfl
      | some r =>
        by_cases hj : six = j
        · simp [hj, Reward.addN_addOne]
        · simp [hj]
    · have hc : min (fuel + 1) b.toNat = 0 := by omega
      simp [addRemainder, hb, hc]

/-- A unit handed to a slot that holds a reward raises the total by one. -/
theorem rewardSum_modify_addOne : ∀ (rs : List (Reward A)) (i : Nat) (r : Reward A),
    rs[i]? = some r → r.reward.isSome →
    rewardSum (rs.modify i Reward.addOne) = rewardSum rs + 1
  | [], _, _, h, _ => by simp at h
  | r' :: rs, 0, r, h, hr => by
    simp only [List.getElem?_cons_zero, Option.some.injEq] at h
    subst h
    simp [Reward.amount_addOne hr]
    ring
  | r' :: rs, i + 1, r, h, hr => by
    simp only [List.getElem?_cons_succ] at h
    simp [rewardSum_modify_addOne rs i r h hr]
    ring

/-- The remainder loop adds one unit per iteration it runs, as long as the first `n` slots
hold rewards (the first member loop has filled them). -/
theorem addRemainder_sum (n : Nat) : ∀ (fuel six : Nat) (b : Int) (rs : List (Reward A)),
    six < n → n ≤ rs.length →
    (∀ j < n, ∀ r, rs[j]? = some r → r.reward.isSome) →
    rewardSum (addRemainder n fuel six b rs) = rewardSum rs + min fuel b.toNat
  | 0, _, _, _, _, _, _ => by simp [addRemainder]
  | fuel + 1, six, b, rs, hsix, hlen, hfill => by
    by_cases hb : 0 < b
    · have hn : 0 < n := by omega
      obtain ⟨r, hr⟩ : ∃ r, rs[six]? = some r := by
        simp only [List.getElem?_eq_some_iff]
        exact ⟨_, by omega, rfl⟩
      -- the filled slots stay filled after the unit at `six`
      have hfill' : ∀ j < n, ∀ r, (rs.modify six Reward.addOne)[j]? = some r →
          r.reward.isSome := by
        intro j hj r' hr'
        rw [List.getElem?_modify] at hr'
        cases hrs : rs[j]? with
        | none => simp [hrs] at hr'
        | some x =>
          have hx := hfill j hj x hrs
          rw [hrs] at hr'
          by_cases hsj : six = j
          · have hr'' : r' = x.addOne := by simpa [hsj] using hr'.symm
            subst hr''
            simpa [Reward.addOne] using hx
          · have hr'' : r' = x := by simpa [hsj] using hr'.symm
            exact hr'' ▸ hx
      have hc : min (fuel + 1) b.toNat = min fuel (b - 1).toNat + 1 := by omega
      rw [addRemainder, if_pos hb,
        addRemainder_sum n fuel _ _ _ (Nat.mod_lt _ hn) (by simpa using hlen) hfill',
        rewardSum_modify_addOne rs six r hr (hfill six hsix r hr), hc]
      push_cast
      ring
    · have hc : min (fuel + 1) b.toNat = 0 := by omega
      simp [addRemainder, hb, hc]

/-- The remainder loop touches only the first `n` slots. -/
theorem addRemainder_append {n : Nat} (fuel six : Nat) (b : Int) (xs ys : List (Reward A))
    (hsix : six < n) (hxs : xs.length = n) :
    addRemainder n fuel six b (xs ++ ys) = addRemainder n fuel six b xs ++ ys := by
  apply List.ext_getElem?
  intro j
  rw [addRemainder_getElem? n fuel six b _ j hsix]
  by_cases hj : j < n
  · rw [List.getElem?_append_left (by simpa [hxs] using hj),
      List.getElem?_append_left (by simpa [hxs] using hj), addRemainder_getElem? n fuel six b _ j hsix]
  · have hnot : j ∉ cyclicRun n six (min fuel b.toNat) :=
      fun hm => hj (cyclicRun_lt (by omega) six _ j hm)
    rw [List.count_eq_zero_of_not_mem hnot, Reward.addN_zero_eq_id, Option.map_id,
      List.getElem?_append_right (by omega), List.getElem?_append_right (by simp; omega)]
    simp [hxs]

/-! ## The first member loop and the account slots -/

theorem fillMembers_eq : ∀ (members : List (MetaMember A)) (d : Int) (rs : List (Reward A)),
    members.length ≤ rs.length →
    fillMembers members d rs =
      members.map (fun m => (⟨m.addr, some d⟩ : Reward A)) ++ rs.drop members.length
  | [], _, rs, _ => by simp [fillMembers]
  | _ :: _, _, [], h => by simp at h
  | m :: ms, d, _ :: rs, h => by
    simp only [List.length_cons, Nat.add_le_add_iff_right] at h
    simp [fillMembers, fillMembers_eq ms d rs h]

/-- The account slots in order: the pool, then maintenance, each if present. -/
def accountSlots (rewardPoolAccount maintenanceAccount : Option A) (s : Shares) :
    List (Reward A) :=
  (rewardPoolAccount.map fun a => (⟨a, some s.pool⟩ : Reward A)).toList ++
    (maintenanceAccount.map fun a => (⟨a, some s.maint⟩ : Reward A)).toList

/-- `placeAccounts` writes only past the member slots. -/
theorem placeAccounts_append {n : Nat} (p m : Option A) (s : Shares) (xs ys : List (Reward A))
    (hxs : xs.length = n) :
    placeAccounts n p m s (xs ++ ys) = xs ++ placeAccounts 0 p m s ys := by
  subst hxs
  rcases p with _ | a <;> rcases m with _ | b <;>
    simp [placeAccounts, List.set_append_right, Nat.add_comm]

/-- Slots sized as `calculateRewards` sizes them end up as exactly the account slots. -/
theorem placeAccounts_zero (p m : Option A) (s : Shares) (ys : List (Reward A))
    (hys : ys.length = (if p.isSome then 1 else 0) + (if m.isSome then 1 else 0)) :
    placeAccounts 0 p m s ys = accountSlots p m s := by
  rcases p with _ | a <;> rcases m with _ | b <;>
    rcases ys with _ | ⟨y, _ | ⟨y', _ | ⟨y'', ys⟩⟩⟩ <;>
    simp_all [placeAccounts, accountSlots]

@[simp] theorem rewardSum_accountSlots (p m : Option A) (s : Shares) :
    rewardSum (accountSlots p m s) =
      (if p.isSome then s.pool else 0) + (if m.isSome then s.maint else 0) := by
  rcases p with _ | a <;> rcases m with _ | b <;> simp [accountSlots, Reward.amount]

/-! ## The member slots -/

/-- The member slots after both member loops: member `j` gets the even share `d / n`, plus
one unit if it is among the `d % n` slots from `six` on. -/
theorem memberSlots_eq {n : Nat} (hn : 0 < n) {six : Nat} (hsix : six < n) (d : Int)
    (members : List (MetaMember A)) :
    addRemainder n n six (d % n)
        (members.map fun mm => (⟨mm.addr, some (d / n)⟩ : Reward A)) =
      members.mapIdx fun j mm =>
        (⟨mm.addr, some (d / n + if j ∈ cyclicRun n six (d % n).toNat then 1 else 0)⟩ :
          Reward A) := by
  have hlt : (d % n).toNat < n := by
    have := Int.emod_lt_of_pos d (b := n) (by omega)
    have := Int.emod_nonneg d (b := n) (by omega)
    omega
  apply List.ext_getElem?
  intro j
  rw [addRemainder_getElem? n n six _ _ j hsix, Nat.min_eq_right hlt.le,
    count_cyclicRun six hlt.le, List.getElem?_map, List.getElem?_mapIdx]
  cases members[j]? with
  | none => rfl
  | some mm => split <;> simp [Reward.addN]

/-- The member slots hold the whole member share. -/
theorem rewardSum_memberSlots {n : Nat} (hn : 0 < n) {six : Nat} (hsix : six < n) (d : Int)
    (members : List (MetaMember A)) (hlen : members.length = n) :
    rewardSum (addRemainder n n six (d % n)
      (members.map fun mm => (⟨mm.addr, some (d / n)⟩ : Reward A))) = d := by
  have hlt : (d % n).toNat < n := by
    have := Int.emod_lt_of_pos d (b := n) (by omega)
    have := Int.emod_nonneg d (b := n) (by omega)
    omega
  have hnn : 0 ≤ d % n := Int.emod_nonneg d (b := n) (by omega)
  have hfill : ∀ j < n, ∀ r, (members.map fun mm => (⟨mm.addr, some (d / n)⟩ : Reward A))[j]? =
      some r → r.reward.isSome := by
    intro j _ r hr
    rw [List.getElem?_map] at hr
    cases hm : members[j]? with
    | none => simp [hm] at hr
    | some mm => simp [hm] at hr; simp [← hr]
  rw [addRemainder_sum n n six _ _ hsix (by simp [hlen]) hfill, Nat.min_eq_right hlt.le,
    Int.toNat_of_nonneg hnn]
  have hsum : rewardSum (members.map fun mm => (⟨mm.addr, some (d / n)⟩ : Reward A)) =
      n * (d / n) := by
    simp [rewardSum, Reward.amount, Function.comp_def, List.map_const', List.sum_replicate, hlen]
  rw [hsum]
  exact Int.mul_ediv_add_emod d n

/-! ## `distributeRewards` -/

/-- The slots after `distributeRewards`: the member slots as the remainder loop leaves them,
then the account slots. -/
theorem distributeRewards_eq (six : Nat) (p m : Option A) (members : List (MetaMember A))
    (rewards : List (Reward A)) (amount : Int)
    (hsix : 0 < members.length → six < members.length)
    (hlen : rewards.length = slotCount members.length p m) :
    distributeRewards six p m members rewards amount =
      addRemainder members.length members.length six
          ((splitAmount members.length p m amount).miner % members.length)
          (members.map fun mm =>
            (⟨mm.addr, some ((splitAmount members.length p m amount).miner / members.length)⟩ :
              Reward A)) ++
        accountSlots p m (splitAmount members.length p m amount) := by
  rcases members with _ | ⟨mm, ms⟩
  · have hrs : rewards.length = (if p.isSome then 1 else 0) + (if m.isSome then 1 else 0) := by
      simpa [slotCount] using hlen
    simp [distributeRewards, addRemainder, placeAccounts_zero p m _ rewards hrs]
  · have hpos : 0 < (mm :: ms).length := by simp
    generalize hn : (mm :: ms).length = n at *
    simp only [distributeRewards, hn, if_pos hpos]
    generalize splitAmount n p m amount = s
    have hfill := fillMembers_eq (mm :: ms) (s.miner / n) rewards
      (by simp [hn, hlen, slotCount]; omega)
    have hdrop : (rewards.drop n).length =
        (if p.isSome then 1 else 0) + (if m.isSome then 1 else 0) := by
      simp only [List.length_drop, hlen, slotCount]
      omega
    have hb : s.miner - s.miner / n * n = s.miner % n := by
      rw [Int.emod_def]
      ring
    rw [hfill, hn, hb, addRemainder_append _ _ _ _ _ (hsix hpos) (by simpa using hn),
      placeAccounts_append _ _ _ _ _ (by simpa using hn), placeAccounts_zero _ _ _ _ hdrop]

theorem emod_toNat_lt {n : Nat} (hn : 0 < n) (d : Int) : (d % n).toNat < n := by
  have := Int.emod_lt_of_pos d (b := n) (by omega)
  have := Int.emod_nonneg d (b := n) (by omega)
  omega

/-- The rewards `distributeRewards` writes add up to the amount it splits. -/
theorem rewardSum_distributeRewards (six : Nat) (p m : Option A)
    (members : List (MetaMember A)) (rewards : List (Reward A)) (amount : Int)
    (hsix : 0 < members.length → six < members.length)
    (hrecv : 0 < members.length ∨ p.isSome ∨ m.isSome)
    (hlen : rewards.length = slotCount members.length p m) :
    rewardSum (distributeRewards six p m members rewards amount) = amount := by
  have hout := distributeRewards_eq six p m members rewards amount hsix hlen
  rcases Nat.eq_zero_or_pos members.length with h0 | hpos
  · obtain rfl : members = [] := List.eq_nil_of_length_eq_zero h0
    have htot := splitAmount_total 0 p m amount (by simpa using hrecv)
    simpa [hout, addRemainder] using htot
  · have htot := splitAmount_total members.length p m amount (Or.inl hpos)
    rw [hout, rewardSum_append, rewardSum_memberSlots hpos (hsix hpos) _ members rfl,
      rewardSum_accountSlots]
    simp only [hpos, if_true] at htot
    linarith

/-- **Value conservation of the block rewards.** For every amount and every presence
pattern `calculateRewards` lets through, with the slots sized as it sizes them and `six` a
member index: the rewards add up to the amount; the slots are the members, then the pool,
then maintenance; member `j` gets `m / n`, plus one unit exactly when `j` is one of the
`m % n` slots `six, six+1, …` (mod `n`); and the member share `m` is 45% plus the shares
of the absent accounts. -/
theorem distributeRewards_conserves (six : Nat) (p m : Option A)
    (members : List (MetaMember A)) (rewards : List (Reward A)) (amount : Int)
    (hsix : 0 < members.length → six < members.length)
    (hrecv : 0 < members.length ∨ p.isSome ∨ m.isSome)
    (hlen : rewards.length = slotCount members.length p m) :
    let n := members.length
    let s := splitAmount n p m amount
    let run := cyclicRun n six (s.miner % n).toNat
    let out := distributeRewards six p m members rewards amount
    rewardSum out = amount ∧
      out = members.mapIdx (fun j mm =>
          (⟨mm.addr, some (s.miner / n + if j ∈ run then 1 else 0)⟩ : Reward A)) ++
        accountSlots p m s ∧
      (0 < n → run.length = (s.miner % n).toNat ∧ run.Nodup ∧ (∀ j ∈ run, j < n) ∧
        s.miner = amount * 45 / 100 +
          (if p.isNone then amount - amount * 45 / 100 - amount * 10 / 100 else 0) +
          (if m.isNone then amount * 10 / 100 else 0)) := by
  dsimp only
  have hout := distributeRewards_eq six p m members rewards amount hsix hlen
  refine ⟨rewardSum_distributeRewards six p m members rewards amount hsix hrecv hlen, ?_, ?_⟩
  · rcases Nat.eq_zero_or_pos members.length with h0 | hpos
    · obtain rfl : members = [] := List.eq_nil_of_length_eq_zero h0
      simp [hout, addRemainder]
    · rw [hout, memberSlots_eq hpos (hsix hpos)]
  · intro hpos
    have hlt := emod_toNat_lt hpos (splitAmount members.length p m amount).miner
    exact ⟨by simp, cyclicRun_nodup six hlt.le, cyclicRun_lt hpos six _,
      splitAmount_miner hpos p m amount⟩

/-- `TestDistributeRewards`' first case: pool, maintenance and three members, 101 in
total, from member `0`: 15 to each member, 46 to the pool, 10 to maintenance. -/
theorem distributeRewards_conserves_101 :
    (0 < 3 → 0 < 3) ∧ (0 < 3 ∨ (some 10 : Option Nat).isSome ∨ (some 20 : Option Nat).isSome) ∧
      (List.replicate 5 (⟨0, none⟩ : Reward Nat)).length = slotCount 3 (some 10) (some 20) ∧
      (rewardSum (distributeRewards 0 (some 10) (some 20) [⟨1⟩, ⟨2⟩, ⟨3⟩]
          (List.replicate 5 ⟨0, none⟩) 101) = 101 ∧
        distributeRewards 0 (some 10) (some 20) [⟨1⟩, ⟨2⟩, ⟨3⟩] (List.replicate 5 ⟨0, none⟩) 101 =
          [⟨1, some 15⟩, ⟨2, some 15⟩, ⟨3, some 15⟩, ⟨10, some 46⟩, ⟨20, some 10⟩]) :=
  have h := distributeRewards_conserves 0 (some 10) (some 20)
    [⟨1⟩, ⟨2⟩, ⟨3⟩] (List.replicate 5 (⟨0, none⟩ : Reward Nat)) 101
    (by decide) (by decide) (by decide)
  ⟨by decide, by decide, by decide, h.1, by rw [h.2.1]; decide⟩

/-! ## `calculateRewards` -/

end GoMetadium.Rewards
