import Mathlib
import GoMetadium.Metadium.GovData

set_option autoImplicit false

/-! # The miner rotation

`getMinerNodes` sorts the nodes by name, marks each up or down, and scans them cyclically from
the slot `height / blocksPer mod n`; the first node up is the next miner. With a positive
`blocksPer` and a non-negative height it returns exactly that node (`getMinerNodes_next`),
and nothing only when no node is up.

`LogBlock` uses the next miner without a check. Its own node always counts as up, so while that
node is in the node set and `blocksPer` is positive the yield never faults (`LogBlock_safe`).
But `update` copies `blocksPer` from the contract without a check, and it sets `self` when its
own node appears and never clears it: a node removed from the governance set keeps `self`,
keeps mining (`checkMining` goes by `self`), and with no peer up the next block it logs at a
slot boundary dereferences a nil next miner (`LogBlock_faults_after_removal`).
-/

namespace GoMetadium.Admin

variable {Name : Type}

/-! ## Rotations -/

/-- The first `j + 1` nodes of a rotation from `i` are the node at `i` and the first `j` from
`i + 1`. -/
theorem take_rotate_succ {α : Type} {l : List α} {i j : Nat} {a : α} (hi : l[i]? = some a)
    (hj : j < l.length) : (l.rotate i).take (j + 1) = a :: (l.rotate (i + 1)).take j := by
  have hlen : 0 < l.length := by omega
  have hil : i < l.length := (List.getElem?_eq_some_iff.mp hi).1
  -- the rotation from `i` starts with the node at `i`
  obtain ⟨t, ht⟩ : ∃ t, l.rotate i = a :: t := by
    have h0 : (l.rotate i)[0]? = some a := by
      rw [List.getElem?_rotate hlen, Nat.zero_add, Nat.mod_eq_of_lt hil, hi]
    cases hr : l.rotate i with
    | nil => simp [hr] at h0
    | cons b t =>
      rw [hr] at h0
      exact ⟨t, by simpa using h0⟩
  have htlen : t.length + 1 = l.length := by
    rw [← List.length_cons (a := a), ← ht, List.length_rotate]
  have hsucc : l.rotate (i + 1) = t ++ [a] := by
    rw [← List.rotate_rotate, ht, List.rotate_cons_succ, List.rotate_zero]
  rw [ht, hsucc, List.take_succ_cons, List.take_append_of_le_length (by omega)]

/-! ## The first node that is up -/

/-- `next` is the first node of `l` that is up, or that node marked as the miner; nothing if no
node of `l` is up. -/
def FirstUp (l : List (MetaNode Name)) (next : Option (MetaNode Name)) : Prop :=
  match l.find? fun m => decide (m.status = .up) with
  | none => next = none
  | some m => next = some m ∨ next = some { m with miner := true }

theorem FirstUp.eq_none_iff {l : List (MetaNode Name)} {next : Option (MetaNode Name)}
    (h : FirstUp l next) : next = none ↔ ∀ m ∈ l, m.status ≠ .up := by
  unfold FirstUp at h
  cases hf : l.find? fun m => decide (m.status = .up) with
  | none =>
    rw [hf] at h
    simpa [h] using List.find?_eq_none.mp hf
  | some m =>
    rw [hf] at h
    have hup : m.status = .up := by simpa using List.find?_some hf
    constructor
    · intro hnone
      rcases h with h | h <;> rw [hnone] at h <;> cases h
    · intro hall
      exact absurd hup (hall m (List.mem_of_find?_eq_some hf))

/-- `nodes` is `l` with some of its nodes marked as the miner. -/
structure Marked (l nodes : List (MetaNode Name)) : Prop where
  length : nodes.length = l.length
  get : ∀ (i : Nat) (n : MetaNode Name), nodes[i]? = some n →
    ∃ m : MetaNode Name, l[i]? = some m ∧ (n = m ∨ n = { m with miner := true })

theorem Marked.refl (l : List (MetaNode Name)) : Marked l l :=
  ⟨rfl, fun _ n h => ⟨n, h, .inl rfl⟩⟩

theorem Marked.set {l nodes : List (MetaNode Name)} (h : Marked l nodes) {i : Nat}
    {n : MetaNode Name} (hn : nodes[i]? = some n) :
    Marked l (nodes.set i { n with miner := true }) := by
  refine ⟨by rw [List.length_set, h.length], fun k m hk => ?_⟩
  rw [List.getElem?_set] at hk
  by_cases hik : i = k
  · -- the node marked now: marking twice is marking once
    subst hik
    have hlt : i < nodes.length := (List.getElem?_eq_some_iff.mp hn).1
    rw [if_pos rfl, if_pos hlt] at hk
    obtain ⟨m₀, hm₀, hn₀⟩ := h.get i n hn
    refine ⟨m₀, hm₀, .inr ?_⟩
    cases hk
    rcases hn₀ with rfl | rfl <;> rfl
  · rw [if_neg hik] at hk
    exact h.get k m hk

/-! ## The scan of `getMinerNodes` -/

/-- What the scan from index `i` of the marked nodes of `l`, with `j` turns left, returns: a
result whose next is the one found before, or else the first node up among the `j` nodes from
`i` on. -/
def ScanResult (l : List (MetaNode Name)) (i j : Nat) (next : Option (MetaNode Name))
    (r : Option (Option (MetaNode Name) × Option (MetaNode Name) × List (MetaNode Name))) : Prop :=
  ∃ miner' next' nodes', r = some (miner', next', nodes') ∧
    match next with
    | some m => next' = some m
    | none => FirstUp ((l.rotate i).take j) next'

/-- One turn of the scan, at the node `m` of `l` (seen as `n`, perhaps marked): if nothing was
found before and `m` is up, it is the next miner; otherwise the scan goes on from `i + 1`. -/
theorem ScanResult.visit {l : List (MetaNode Name)} {i j : Nat} {next : Option (MetaNode Name)}
    {m n : MetaNode Name}
    {r : Option (Option (MetaNode Name) × Option (MetaNode Name) × List (MetaNode Name))}
    (hm : l[i]? = some m) (hj : j < l.length) (hn : n = m ∨ n = { m with miner := true })
    (h : ScanResult l ((i + 1) % l.length) j
      (if next.isNone && decide (n.status = .up) then some n else next) r) :
    ScanResult l i (j + 1) next r := by
  obtain ⟨miner', next', nodes', hr, hnext⟩ := h
  refine ⟨miner', next', nodes', hr, ?_⟩
  have hst : n.status = m.status := by rcases hn with rfl | rfl <;> rfl
  cases next with
  | some m' => simpa using hnext
  | none =>
    show FirstUp _ next'
    rw [take_rotate_succ hm hj]
    by_cases hup : m.status = .up
    · -- `m` is the first node up from `i`
      simp only [Option.isNone_none, hst, hup, decide_true, Bool.and_self, ↓reduceIte] at hnext
      unfold FirstUp
      rw [List.find?_cons_of_pos (by simp [hup])]
      rcases hn with rfl | rfl
      · exact .inl hnext
      · exact .inr hnext
    · simp only [Option.isNone_none, hst, hup, decide_false, Bool.and_false,
        Bool.false_eq_true, ↓reduceIte, List.rotate_mod] at hnext
      unfold FirstUp
      rw [List.find?_cons_of_neg (by simp [hup])]
      exact hnext

/-- The scan of `getMinerNodes` over the marked nodes of `l`: induction on the turns left, the
invariant being that the slice is `l` with some miner marks. -/
theorem scanMiners_spec [DecidableEq Name] (leader : Option (MetaNode Name)) (l : List (MetaNode Name)) :
    ∀ j i nodes miner next, i < l.length → j ≤ l.length → Marked l nodes →
      ScanResult l i j next (scanMiners leader j i nodes miner next) := by
  intro j
  induction j with
  | zero =>
    intro i nodes miner next _ _ _
    refine ⟨miner, next, nodes, rfl, ?_⟩
    cases next with
    | some m => rfl
    | none => simp [FirstUp]
  | succ j ih =>
    intro i nodes miner next hi hj hmarked
    have hlen : 0 < l.length := by omega
    unfold scanMiners
    by_cases hstop : (miner.isSome && next.isSome) = true
    · -- both found: the loop breaks
      rw [if_pos hstop]
      have hboth : miner.isSome = true ∧ next.isSome = true := by simpa using hstop
      obtain ⟨m', rfl⟩ := Option.isSome_iff_exists.mp hboth.2
      exact ⟨miner, some m', nodes, rfl, rfl⟩
    · rw [if_neg hstop]
      have hin : i < nodes.length := by rw [hmarked.length]; exact hi
      obtain ⟨m, hm, hnm⟩ := hmarked.get i nodes[i] (List.getElem?_eq_getElem hin)
      rw [List.getElem?_eq_getElem hin]
      have hnext : (i + 1) % l.length < l.length := Nat.mod_lt _ hlen
      -- the node becomes the miner or not; either way the slice stays marked
      dsimp only
      by_cases hmin : (miner.isNone && leader.any fun l => decide (nodes[i].name = l.name)) = true
      · simp only [hmin, ↓reduceIte, List.length_set, hmarked.length]
        have hmarked' := hmarked.set (List.getElem?_eq_getElem hin)
        refine ScanResult.visit (n := { nodes[i] with miner := true }) hm (by omega) (.inr ?_)
          (ih _ _ _ _ hnext (by omega) hmarked')
        rcases hnm with h | h <;> rw [h]
      · simp only [hmin, Bool.false_eq_true, ↓reduceIte, hmarked.length]
        exact ScanResult.visit hm (by omega) hnm (ih _ _ _ _ hnext (by omega) hmarked)

/-! ## `getMinerNodes` -/

theorem markStatus_up_iff {self : Option (MetaNode Name)} {net : Network Name}
    {n : MetaNode Name} :
    (markStatus self net n).status = .up ↔
      (self.any fun s => decide (n.id = s.id)) = true ∨ net.isPeerUp n.id = true := by
  unfold markStatus
  split_ifs with h <;> simp_all

section GetMinerNodes

variable [LinearOrder Name] {Address : Type}

/-- With a positive `blocksPer` and a non-negative height, `getMinerNodes` returns as next the
first node that is up in name order from the slot `height / blocksPer mod n`, and nothing only
if no node is up. -/
theorem getMinerNodes_next (ma : MetaAdmin Name Address) (net : Network Name) (height : Int)
    (hper : 0 < ma.blocksPer) (hh : 0 ≤ height) (hne : ma.nodes.nodes ≠ []) :
    ∃ miner next nodes, getMinerNodes ma net height = some (miner, next, nodes) ∧
      FirstUp (((sortByName ma.nodes.nodes).map (markStatus ma.self net)).rotate
        (height / ma.blocksPer % ma.nodes.nodes.length).toNat) next ∧
      (next = none ↔ ∀ m ∈ ma.nodes.nodes, (markStatus ma.self net m).status ≠ .up) := by
  have hlen : ma.nodes.nodes.length ≠ 0 := by simpa using hne
  have hLlen : ((sortByName ma.nodes.nodes).map (markStatus ma.self net)).length =
      ma.nodes.nodes.length := by
    rw [List.length_map, (sortByName_perm _).length_eq]
  -- Go's truncated division is the Euclidean one on non-negative values
  have hq : 0 ≤ height.tdiv ma.blocksPer := Int.tdiv_nonneg hh hper.le
  have hix : (height.tdiv ma.blocksPer).tmod ma.nodes.nodes.length =
      height / ma.blocksPer % ma.nodes.nodes.length := by
    rw [Int.tmod_eq_emod_of_nonneg hq, Int.tdiv_eq_ediv_of_nonneg hh]
  have hix0 : 0 ≤ height / ma.blocksPer % ma.nodes.nodes.length :=
    Int.emod_nonneg _ (by exact_mod_cast hlen)
  have hixlt : (height / ma.blocksPer % ma.nodes.nodes.length).toNat < ma.nodes.nodes.length := by
    have := Int.emod_lt_of_pos (height / ma.blocksPer) (b := ma.nodes.nodes.length) (by omega)
    omega
  unfold getMinerNodes
  simp only [hlen, ↓reduceIte, Go.div_of_ne hper.ne', Option.bind_some, hLlen, hix,
    not_lt.mpr hix0]
  obtain ⟨miner, next, nodes, hr, hnext⟩ :=
    scanMiners_spec net.leader ((sortByName ma.nodes.nodes).map (markStatus ma.self net))
      ma.nodes.nodes.length _ _ none none (by rw [hLlen]; exact hixlt) hLlen.ge (Marked.refl _)
  have hfirst := hnext
  rw [List.take_of_length_le (by rw [List.length_rotate, hLlen])] at hfirst
  refine ⟨miner, next, nodes, hr, hfirst, ?_⟩
  rw [hfirst.eq_none_iff]
  simp only [List.mem_rotate, List.mem_map, (sortByName_perm _).mem_iff]
  constructor
  · intro h m hm
    exact h _ ⟨m, hm, rfl⟩
  · rintro h _ ⟨m, hm, rfl⟩
    exact h m hm

/-- One node, its own, at height 250 of the default 100 blocks per miner. -/
theorem getMinerNodes_next_own :
    let ma : MetaAdmin Nat Nat :=
      { (StartAdmin ⟨0, 1, 2, 3⟩ "s" : MetaAdmin Nat Nat) with
        nodes := NodeMap.empty.insert ⟨1, "s", "10.0.0.1", 8589, .unset, false⟩ }
    let net : Network Nat := ⟨fun _ => false, none, fun _ => true⟩
    ∃ miner next nodes, getMinerNodes ma net 250 = some (miner, next, nodes) ∧
      FirstUp (((sortByName ma.nodes.nodes).map (markStatus ma.self net)).rotate
        (250 / ma.blocksPer % ma.nodes.nodes.length).toNat) next ∧
      (next = none ↔ ∀ m ∈ ma.nodes.nodes, (markStatus ma.self net m).status ≠ .up) := by
  intro ma net
  exact getMinerNodes_next ma net 250 (by decide) (by decide)
    (by simp [ma, NodeMap.insert, NodeMap.empty])

/-- With its own node gone from the node set and no peer up, no node is up, and `LogBlock`
faults at a slot boundary on the nil next miner. -/
theorem LogBlock_stale_self {ma : MetaAdmin Name Address} {net : Network Name} {height : Int}
    {s : MetaNode Name} (hself : ma.self = some s) (hper : 0 < ma.blocksPer)
    (hmined : ma.blocksPer ≤ ma.blocksMined + 1) (hh : 0 ≤ height)
    (hslot : (height + 1) % ma.blocksPer = 0) (hne : ma.nodes.nodes ≠ [])
    (hdown : ∀ m ∈ ma.nodes.nodes, m.id ≠ s.id ∧ net.isPeerUp m.id = false) :
    LogBlock ma net height = none := by
  obtain ⟨miner, next, nodes, hget, -, hnone⟩ :=
    getMinerNodes_next { ma with blocksMined := ma.blocksMined + 1 } net (height + 1) hper
      (by omega) hne
  -- no node is up: its own is gone and no peer is connected
  have hnext : next = none := hnone.mpr fun m hm => by
    rw [Ne, markStatus_up_iff]
    simp [hself, hdown m hm]
  unfold LogBlock
  rw [hself]
  rw [hself] at hget
  simp only [hmined, ↓reduceIte, Go.mod_of_ne hper.ne',
    Int.tmod_eq_emod_of_nonneg (by omega : 0 ≤ height + 1), hslot, Option.bind_some, hget, hnext]

/-- While its own node is in the node set and `blocksPer` is positive, `LogBlock` never
faults: its own node is up, so there is a next miner. -/
theorem LogBlock_safe (ma : MetaAdmin Name Address) (net : Network Name) (height : Int)
    (hlisted : ∀ s, ma.self = some s → ∃ m ∈ ma.nodes.nodes, m.id = s.id)
    (hper : 0 < ma.blocksPer) (hh : 0 ≤ height) : LogBlock ma net height ≠ none := by
  cases hself : ma.self with
  | none =>
    unfold LogBlock
    rw [hself]
    simp
  | some s =>
    obtain ⟨m, hm, hid⟩ := hlisted s hself
    obtain ⟨miner, next, nodes, hget, -, hnone⟩ :=
      getMinerNodes_next { ma with blocksMined := ma.blocksMined + 1 } net (height + 1) hper
        (by omega) (List.ne_nil_of_mem hm)
    -- its own node is up
    have hnext : next ≠ none := fun h =>
      hnone.mp h m hm (by rw [markStatus_up_iff]; simp [hself, hid])
    obtain ⟨next, rfl⟩ := Option.ne_none_iff_exists'.mp hnext
    unfold LogBlock
    rw [hself]
    rw [hself] at hget
    simp only [Go.mod_of_ne hper.ne', Option.bind_some, hget]
    split_ifs <;> simp

/-- Its own node listed: the yield at height 99 of the default 100 blocks per miner. -/
theorem LogBlock_safe_listed :
    let x : MetaNode Nat := ⟨1, "s", "10.0.0.1", 8589, .unset, false⟩
    let ma : MetaAdmin Nat Nat :=
      { (StartAdmin ⟨0, 1, 2, 3⟩ "s" : MetaAdmin Nat Nat) with
        self := some x, nodes := NodeMap.empty.insert x, blocksMined := 99 }
    LogBlock ma ⟨fun _ => false, none, fun _ => true⟩ 99 ≠ none := by
  intro x ma
  refine LogBlock_safe ma _ 99 (fun s hs => ⟨x, ?_, ?_⟩) (by decide) (by decide)
  · simp [ma, NodeMap.insert, NodeMap.empty]
  · simp only [ma, Option.some.injEq] at hs
    rw [hs]

end GetMinerNodes

/-! ## `update` keeps a stale `self` -/

/-- Indexing nodes none of which is its own leaves `self` as it was. -/
theorem foldl_indexNode_self (selfId : String) :
    ∀ (l : List (MetaNode Name)) (acc : NodeMap Name × Option (MetaNode Name)),
      (∀ i ∈ l, i.id ≠ selfId) → (l.foldl (indexNode selfId) acc).2 = acc.2
  | [], _, _ => rfl
  | i :: l, acc, h => by
    rw [List.foldl_cons, foldl_indexNode_self selfId l _ fun j hj => h j (.tail _ hj)]
    simp [indexNode, h i (.head _)]

section Update

variable [LinearOrder Name] {Address : Type} [DecidableEq Address]

/-- New governance data at unchanged addresses: `update` takes the contract's `blocksPer` as it
is, indexes the nodes read, and sets `self` only if its own node is among them. -/
theorem update_of_fresh {ma : MetaAdmin Name Address} {addresses : AdminAddresses Address}
    {reply : GovReply Name} {blockNum modifiedBlock : Int} {gasPrice : Nat}
    {new : List (MetaNode Name)} (haddr : addresses = ma.addresses)
    (hb : reply.blockNum = some blockNum) (hm : reply.modifiedBlock = some modifiedBlock)
    (hg : reply.gasPrice = some gasPrice) (hn : reply.nodes = some new)
    (hblock : ma.lastBlock < blockNum) (hmod : ma.modifiedBlock ≠ modifiedBlock)
    (hm0 : modifiedBlock ≠ 0) (hb0 : blockNum ≠ 0) :
    update ma (some addresses) reply =
      { ma with modifiedBlock := modifiedBlock, blocksPer := reply.blocksPer.getD ma.blocksPer,
                gasPrice := some gasPrice,
                self := ((sortByName new).foldl (indexNode ma.selfId) (NodeMap.empty, ma.self)).2,
                nodes := ((sortByName new).foldl (indexNode ma.selfId) (NodeMap.empty, ma.self)).1,
                lastBlock := blockNum } := by
  obtain ⟨a, u, d, hdiff⟩ := diffNodes_keeps ma.nodes.nodes new
    { blockNum := blockNum, modifiedBlock := modifiedBlock,
      blocksPer := reply.blocksPer.getD ma.blocksPer, gasPrice := some gasPrice }
  have hget : getGovData ma false reply = _ := getGovData_of_nodes hb hm hg hn
    (.inr ⟨hblock, hmod⟩)
  subst haddr
  unfold update
  simp only [ne_eq, not_true_eq_false, decide_false, hget, hdiff]
  simp [hm0, hmod, hb0]

/-- A run from `StartAdmin` in which its own node `s` is in the first governance data (one
block per miner) and only `b` in the next: `self` stays `s`, and with no peer up the block
logged at height 5 reaches the yield and faults on the nil next miner. -/
theorem LogBlock_faults_after_removal :
    let a : AdminAddresses Nat := ⟨0, 1, 2, 3⟩
    let s : MetaNode Nat := ⟨1, "s", "10.0.0.1", 8589, .unset, false⟩
    let b : MetaNode Nat := ⟨2, "b", "10.0.0.2", 8589, .unset, false⟩
    let ma₁ := update (StartAdmin a "s") (some a)
      { blockNum := some 1, modifiedBlock := some 1, blocksPer := some 1, gasPrice := some 80,
        nodes := some [s] }
    let ma₂ := update ma₁ (some a)
      { blockNum := some 2, modifiedBlock := some 2, blocksPer := some 1, gasPrice := some 80,
        nodes := some [b] }
    LogBlock ma₂ ⟨fun _ => false, none, fun _ => true⟩ 5 = none := by
  intro a s b ma₁ ma₂
  -- the first update takes its own node as `self`
  have h₁ : ma₁ =
      { (StartAdmin a "s" : MetaAdmin Nat Nat) with
        modifiedBlock := 1, blocksPer := 1, gasPrice := some 80,
        self := ((sortByName [s]).foldl (indexNode "s") (NodeMap.empty, none)).2,
        nodes := ((sortByName [s]).foldl (indexNode "s") (NodeMap.empty, none)).1,
        lastBlock := 1 } := by
    refine update_of_fresh rfl ?_ ?_ ?_ ?_ ?_ ?_ ?_ ?_ <;> decide
  -- the second replaces the nodes by `b` alone
  have h₂ : ma₂ =
      { ma₁ with
        modifiedBlock := 2, blocksPer := 1, gasPrice := some 80,
        self := ((sortByName [b]).foldl (indexNode ma₁.selfId) (NodeMap.empty, ma₁.self)).2,
        nodes := ((sortByName [b]).foldl (indexNode ma₁.selfId) (NodeMap.empty, ma₁.self)).1,
        lastBlock := 2 } := by
    refine update_of_fresh (by rw [h₁]; rfl) ?_ ?_ ?_ ?_ ?_ ?_ ?_ ?_ <;> simp [h₁]
  have hself₁ : ma₁.self = some s := by
    rw [h₁]
    simp [sortByName, indexNode, s]
  apply LogBlock_stale_self (s := s)
  · -- `self` is never cleared
    rw [h₂, foldl_indexNode_self _ _ _ (by simp [sortByName, b, h₁, StartAdmin]), hself₁]
  all_goals simp [h₂, h₁, StartAdmin, sortByName, indexNode, NodeMap.insert, NodeMap.empty, b, s]

end Update

end GoMetadium.Admin
