import Mathlib

set_option autoImplicit false

/-! # EIP-2124 fork identifiers (`core/forkid/forkid.go`)

A node announces the checksum of its genesis hash and of the fork blocks its head has passed,
with the next fork it knows of. `newID` builds that identifier for a head, counting a fork as
passed when `fork ≤ head`. `newFilter` validates a peer's identifier against the local chain:
it looks for the first local fork that is not passed, which it takes to be the first with
`head ≤ fork` (it skips while `head > fork`), and compares checksums with the rules 1 to 4 of
the EIP.

The two sides disagree at a fork block: a head sitting exactly on a fork block has passed it
for `newID` but not for the filter. A local node at a fork block then rejects a peer on the
same chain one fork behind (`newFilter_rejects_behind`). Off the fork blocks, and with checksums
that tell the passed prefixes apart, every peer on the same chain is accepted
(`newFilter_accepts_same_chain`).

The checksum is a parameter: `crc32.ChecksumIEEE` of the genesis hash and `checksumUpdate`
by a fork block, with the `[4]byte` of `checksumToBytes`, which is a bijection, folded in.
`ChainConfig` is given by its fields as reflection sees them.
-/

namespace GoMetadium.ForkId

/-! ## Chain configurations and their forks -/

/-- The value of a field of `params.ChainConfig`: a `*big.Int` (nil is `none`) or another type. -/
inductive FieldValue where
  | bigInt (v : Option Nat)
  | other
  deriving DecidableEq, Repr

/-- A field of `params.ChainConfig`, with its name. -/
structure ConfigField where
  name : String
  value : FieldValue
  deriving DecidableEq, Repr

/-- `params.ChainConfig` as its fields in declaration order. -/
structure ChainConfig where
  fields : List ConfigField
  deriving DecidableEq, Repr

/-- `math.MaxUint64`, the sentry appended to the forks of a filter. -/
def maxUint64 : Nat := 2 ^ 64 - 1

/-- The fork rules of a configuration: its non-nil `*big.Int` fields whose name ends in
`Block`, as `rule.Uint64()`. -/
def collectForks (fields : List ConfigField) : List Nat :=
  fields.filterMap fun field =>
    if field.name.endsWith "Block" then
      match field.value with
      | .bigInt (some rule) => some (rule % 2 ^ 64)
      | _ => none
    else none

/-- The inner loop of the sort of `gatherForks`: `j` from `i + 1` on, a later fork smaller
than the one at `i` is swapped with it. -/
def sortInner (i : Nat) : Nat → Nat → List Nat → List Nat
  | 0, _, forks => forks
  | fuel + 1, j, forks =>
    if j < forks.length then
      let forks :=
        if forks.getD i 0 > forks.getD j 0 then
          (forks.set i (forks.getD j 0)).set j (forks.getD i 0)
        else forks
      sortInner i fuel (j + 1) forks
    else forks

/-- The outer loop of the sort of `gatherForks`, from `i` on. -/
def sortOuter : Nat → Nat → List Nat → List Nat
  | 0, _, forks => forks
  | fuel + 1, i, forks =>
    if i < forks.length then sortOuter fuel (i + 1) (sortInner i forks.length (i + 1) forks)
    else forks

/-- The deduplication loop of `gatherForks` after the fork `prev`: a fork equal to the last one
kept is removed. -/
def dedupFrom (prev : Nat) : List Nat → List Nat
  | [] => []
  | fork :: forks => if fork = prev then dedupFrom prev forks else fork :: dedupFrom fork forks

/-- The deduplication loop of `gatherForks`. -/
def dedupForks : List Nat → List Nat
  | [] => []
  | fork :: forks => fork :: dedupFrom fork forks

/-- `gatherForks`: the fork blocks sorted, deduplicated, and without the forks at block 0. -/
def gatherForks (config : ChainConfig) : List Nat :=
  let forks := collectForks config.fields
  let forks := sortOuter forks.length 0 forks
  let forks := dedupForks forks
  match forks with
  | 0 :: rest => rest
  | _ => forks

/-! ## Identifiers and the filter -/

/-- The checksums of the fork identifier: `crc32.ChecksumIEEE` of a genesis hash and
`checksumUpdate` by a fork block. -/
structure Crc (Hash Sum : Type) where
  checksum : Hash → Sum
  update : Sum → Nat → Sum

/-- `ID`: the checksum of the passed forks and the next fork, `0` if none is known. -/
structure ID (Sum : Type) where
  hash : Sum
  next : Nat
  deriving DecidableEq, Repr

/-- The errors of a filter. -/
inductive ForkIdError where
  | remoteStale
  | localIncompatibleOrStale
  deriving DecidableEq, Repr

variable {Hash Sum : Type}

/-- The loop of `newID`: a fork at or below the head is passed and checksummed, the first one
above it is the next fork. -/
def newIDLoop (update : Sum → Nat → Sum) (head : Nat) : List Nat → Sum → ID Sum
  | [], hash => ⟨hash, 0⟩
  | fork :: forks, hash =>
    if fork ≤ head then newIDLoop update head forks (update hash fork) else ⟨hash, fork⟩

/-- `newID(config, genesis, head)`. -/
def newID (crc : Crc Hash Sum) (config : ChainConfig) (genesis : Hash) (head : Nat) : ID Sum :=
  newIDLoop crc.update head (gatherForks config) (crc.checksum genesis)

/-- The `sums` of `newFilter`: the checksum of the genesis and after each fork. -/
def checksums (update : Sum → Nat → Sum) : Sum → List Nat → List Sum
  | hash, [] => [hash]
  | hash, fork :: forks => hash :: checksums update (update hash fork) forks

section Validate

variable [DecidableEq Sum]

/-- The validator of `newFilter` from the fork at index `i` on: the first fork with
`head ≤ fork` is the first unpassed one, where rule 1 compares the checksum and the announced
next fork, rule 2 looks for the remote checksum among the earlier ones, rule 3 among the
later ones, and rule 4 rejects. Past the sentry it accepts. -/
def validate (sums : List Sum) (forks : List Nat) (head : Nat) (id : ID Sum) :
    Nat → List Nat → Option ForkIdError
  | _, [] => none
  | i, fork :: rest =>
    if head > fork then validate sums forks head id (i + 1) rest
    else if sums[i]? = some id.hash then
      -- rule 1a: a remote next fork already passed locally
      if id.next > 0 ∧ head ≥ id.next then some .localIncompatibleOrStale else none
    else
      match (List.range i).find? fun j => decide (sums[j]? = some id.hash) with
      | some j => if forks.getD j 0 ≠ id.next then some .remoteStale else none
      | none =>
        if (List.range' (i + 1) (sums.length - (i + 1))).any fun j => decide (sums[j]? = some id.hash)
        then none
        else some .localIncompatibleOrStale

/-- `newFilter(config, genesis, headfn)`: the validator over the forks with the sentry
`MaxUint64` appended; `none` is a nil error. -/
def newFilter (crc : Crc Hash Sum) (config : ChainConfig) (genesis : Hash) (headfn : Unit → Nat) :
    ID Sum → Option ForkIdError :=
  let forks := gatherForks config
  let sums := checksums crc.update (crc.checksum genesis) forks
  let forks := forks ++ [maxUint64]
  fun id => validate sums forks (headfn ()) id 0 forks

end Validate

/-! ## The forks are strictly increasing -/

theorem getD_swap {l : List Nat} {i j k : Nat} (hi : i < l.length) (hj : j < l.length) :
    ((l.set i (l.getD j 0)).set j (l.getD i 0)).getD k 0 =
      if k = j then l.getD i 0 else if k = i then l.getD j 0 else l.getD k 0 := by
  simp only [List.getD_eq_getElem?_getD, List.getElem?_set, List.length_set]
  by_cases hkj : k = j
  · subst hkj
    simp [hj]
  · rw [if_neg (Ne.symm hkj), if_neg hkj]
    by_cases hki : k = i
    · subst hki
      simp [hi]
    · rw [if_neg (Ne.symm hki), if_neg hki]

/-- What the inner loop of the sort at `i`, started on `l`, keeps up to index `j`: the length,
the places before `i`, the later places filled from the later places of `l`, and the fork at
`i` the least of those up to `j`. -/
structure InnerInv (l : List Nat) (i j : Nat) (l' : List Nat) : Prop where
  length : l'.length = l.length
  before : ∀ a < i, l'.getD a 0 = l.getD a 0
  after : ∀ b, i ≤ b → b < l.length → ∃ c, i ≤ c ∧ c < l.length ∧ l'.getD b 0 = l.getD c 0
  least : ∀ k, i < k → k < j → l'.getD i 0 ≤ l'.getD k 0

theorem InnerInv.start (l : List Nat) (i : Nat) : InnerInv l i (i + 1) l where
  length := rfl
  before _ _ := rfl
  after b hb hbl := ⟨b, hb, hbl, rfl⟩
  least _ h₁ h₂ := absurd h₂ (by omega)

/-- One turn of the inner loop: a smaller fork at `j` is swapped into place `i`. -/
theorem InnerInv.step {l l' : List Nat} {i j : Nat} (h : InnerInv l i j l') (hij : i < j)
    (hj : j < l'.length) :
    InnerInv l i (j + 1)
      (if l'.getD i 0 > l'.getD j 0 then (l'.set i (l'.getD j 0)).set j (l'.getD i 0) else l') := by
  have hi : i < l'.length := by omega
  have hlen := h.length
  split_ifs with hswap
  · refine ⟨by simp [h.length], fun a ha => ?_, fun b hb hbl => ?_, fun k hk hkj => ?_⟩
    · rw [getD_swap hi hj, if_neg (by omega), if_neg (by omega)]
      exact h.before a ha
    · rw [getD_swap hi hj]
      split_ifs with hbj hbi
      · exact h.after i le_rfl (by omega)
      · exact h.after j (by omega) (by omega)
      · exact h.after b hb hbl
    · rw [getD_swap hi hj, getD_swap hi hj, if_neg (by omega), if_pos rfl]
      by_cases hkj' : k = j
      · rw [if_pos hkj']
        omega
      · rw [if_neg hkj', if_neg (by omega)]
        have := h.least k hk (by omega)
        omega
  · refine ⟨h.length, h.before, h.after, fun k hk hkj => ?_⟩
    by_cases hkj' : k = j
    · subst hkj'
      omega
    · exact h.least k hk (by omega)

theorem sortInner_inv {l : List Nat} {i : Nat} :
    ∀ fuel j l', InnerInv l i j l' → i < j → l.length ≤ j + fuel →
      InnerInv l i l.length (sortInner i fuel j l') := by
  intro fuel
  induction fuel with
  | zero =>
    intro j l' h hij hlen
    exact ⟨h.length, h.before, h.after, fun k hk hkl => h.least k hk (by omega)⟩
  | succ fuel ih =>
    intro j l' h hij hlen
    unfold sortInner
    by_cases hj : j < l'.length
    · rw [if_pos hj]
      exact ih (j + 1) _ (h.step hij hj) (by omega) (by omega)
    · rw [if_neg hj]
      exact ⟨h.length, h.before, h.after, fun k hk hkl => h.least k hk (by rw [h.length] at hj; omega)⟩

/-- The places before `i` are in order, each below every later place. -/
def OuterInv (l : List Nat) (i : Nat) : Prop :=
  ∀ a b, a < i → a < b → b < l.length → l.getD a 0 ≤ l.getD b 0

theorem OuterInv.step {l : List Nat} {i : Nat} (h : OuterInv l i) (hi : i < l.length) :
    OuterInv (sortInner i l.length (i + 1) l) (i + 1) := by
  have hin := sortInner_inv l.length (i + 1) l (InnerInv.start l i) (by omega) (by omega)
  intro a b ha hab hb
  rw [hin.length] at hb
  by_cases hai : a = i
  · subst hai
    exact hin.least b hab hb
  · rw [hin.before a (by omega)]
    by_cases hbi : b < i
    · rw [hin.before b hbi]
      exact h a b (by omega) hab hb
    · obtain ⟨c, hc, hcl, hbc⟩ := hin.after b (by omega) hb
      rw [hbc]
      exact h a c (by omega) (by omega) hcl

theorem sortOuter_sorted : ∀ fuel i (l : List Nat), OuterInv l i → l.length ≤ i + fuel →
    OuterInv (sortOuter fuel i l) (sortOuter fuel i l).length := by
  intro fuel
  induction fuel with
  | zero =>
    intro i l h hlen a b ha hab hb
    exact h a b (by simp [sortOuter] at hb; omega) hab (by simpa [sortOuter] using hb)
  | succ fuel ih =>
    intro i l h hlen
    unfold sortOuter
    split_ifs with hi
    · have hlen' : (sortInner i l.length (i + 1) l).length = l.length :=
        (sortInner_inv l.length (i + 1) l (InnerInv.start l i) (by omega) (by omega)).length
      exact ih (i + 1) _ (h.step hi) (by omega)
    · intro a b ha hab hb
      exact h a b (by omega) hab hb

theorem sortForks_sorted (l : List Nat) :
    (sortOuter l.length 0 l).Pairwise (· ≤ ·) := by
  have h := sortOuter_sorted l.length 0 l (fun a _ ha => absurd ha (by omega)) (by omega)
  rw [List.pairwise_iff_getElem]
  intro a b ha hb hab
  have := h a b ha hab hb
  rwa [List.getD_eq_getElem _ _ ha, List.getD_eq_getElem _ _ hb] at this

/-- Removing the repeats of a sorted list after `prev` leaves it strictly increasing. -/
theorem dedupFrom_sorted : ∀ (prev : Nat) (l : List Nat), (prev :: l).Pairwise (· ≤ ·) →
    (prev :: dedupFrom prev l).Pairwise (· < ·)
  | prev, [], _ => by simp [dedupFrom]
  | prev, f :: fs, h => by
    have hf : prev ≤ f := List.rel_of_pairwise_cons h (.head _)
    have hrest : (f :: fs).Pairwise (· ≤ ·) := (List.pairwise_cons.mp h).2
    unfold dedupFrom
    split_ifs with hfp
    · -- a repeat of `prev` is dropped
      subst hfp
      exact dedupFrom_sorted f fs (List.pairwise_cons.mpr ⟨fun x hx =>
        List.rel_of_pairwise_cons h (.tail _ hx), (List.pairwise_cons.mp hrest).2⟩)
    · have ih := dedupFrom_sorted f fs hrest
      have hlt : prev < f := lt_of_le_of_ne hf (Ne.symm hfp)
      refine List.pairwise_cons.mpr ⟨fun x hx => ?_, ih⟩
      rcases List.mem_cons.mp hx with rfl | hx
      · exact hlt
      · exact hlt.trans (List.rel_of_pairwise_cons ih hx)

/-- The forks of a configuration are strictly increasing and above block 0. -/
theorem gatherForks_sorted (config : ChainConfig) :
    (gatherForks config).Pairwise (· < ·) ∧ ∀ f ∈ gatherForks config, 0 < f := by
  have hdedup : (dedupForks (sortOuter (collectForks config.fields).length 0
      (collectForks config.fields))).Pairwise (· < ·) := by
    cases h : sortOuter (collectForks config.fields).length 0 (collectForks config.fields) with
    | nil => simp [dedupForks]
    | cons f fs =>
      have := sortForks_sorted (collectForks config.fields)
      rw [h] at this
      exact dedupFrom_sorted f fs this
  unfold gatherForks
  dsimp only
  split
  · next rest heq =>
    rw [heq] at hdedup
    exact ⟨(List.pairwise_cons.mp hdedup).2, fun f hf => List.rel_of_pairwise_cons hdedup hf⟩
  · next forks hne =>
    refine ⟨hdedup, fun f hf => ?_⟩
    cases hd : dedupForks (sortOuter (collectForks config.fields).length 0
        (collectForks config.fields)) with
    | nil => rw [hd] at hf; cases hf
    | cons g gs =>
      rw [hd] at hf hdedup
      have hg : g ≠ 0 := fun hg => hne gs (by rw [hd, hg])
      rcases List.mem_cons.mp hf with rfl | hf
      · omega
      · have := List.rel_of_pairwise_cons hdedup hf
        omega

/-! ## What the identifier and the filter compute -/

theorem length_checksums (update : Sum → Nat → Sum) :
    ∀ (hash : Sum) (forks : List Nat), (checksums update hash forks).length = forks.length + 1
  | _, [] => rfl
  | hash, _ :: forks => by
    rw [checksums, List.length_cons, length_checksums update _ forks, List.length_cons]

/-- `newID` passes the forks up to the first one above the head: with `k` of them passed, its
checksum is the `k`-th of `checksums` and its next fork the `k`-th fork, `0` past the last. -/
theorem newIDLoop_spec (update : Sum → Nat → Sum) (head : Nat) :
    ∀ (forks : List Nat) (hash : Sum), ∃ s,
      (checksums update hash forks)[(forks.takeWhile fun f => decide (f ≤ head)).length]? =
        some s ∧
      newIDLoop update head forks hash =
        ⟨s, forks.getD (forks.takeWhile fun f => decide (f ≤ head)).length 0⟩
  | [], hash => ⟨hash, rfl, rfl⟩
  | f :: fs, hash => by
    by_cases hf : f ≤ head
    · -- the fork is passed: the checksum moves on
      obtain ⟨s, hs, hloop⟩ := newIDLoop_spec update head fs (update hash f)
      rw [List.takeWhile_cons_of_pos (by simpa using hf)]
      refine ⟨s, by simpa [checksums] using hs, ?_⟩
      rw [newIDLoop, if_pos hf, hloop]
      simp
    · refine ⟨hash, ?_, ?_⟩
      · rw [List.takeWhile_cons_of_neg (by simpa using hf)]
        rfl
      · rw [newIDLoop, if_neg hf, List.takeWhile_cons_of_neg (by simpa using hf)]
        rfl

theorem getElem?_inj_of_nodup {l : List Sum} (h : l.Nodup) {a b : Nat} {s : Sum}
    (ha : l[a]? = some s) (hb : l[b]? = some s) : a = b := by
  obtain ⟨ha', rfl⟩ := List.getElem?_eq_some_iff.mp ha
  obtain ⟨hb', hab⟩ := List.getElem?_eq_some_iff.mp hb
  exact (List.Nodup.getElem_inj_iff h).mp hab.symm

section Filter

variable [DecidableEq Sum]

/-- The filter skips the forks below its head. -/
theorem validate_append (sums : List Sum) (forks : List Nat) (head : Nat) (id : ID Sum) :
    ∀ (pre rest : List Nat) (i : Nat), (∀ x ∈ pre, head > x) →
      validate sums forks head id i (pre ++ rest) = validate sums forks head id (i + pre.length) rest
  | [], _, i, _ => rfl
  | x :: pre, rest, i, h => by
    rw [List.cons_append, validate, if_pos (h x (.head _)),
      validate_append sums forks head id pre rest (i + 1) fun y hy => h y (.tail _ hy)]
    congr 1
    simp only [List.length_cons]
    omega

theorem takeWhile_eq_take {p : Nat → Bool} : ∀ (l : List Nat) (m : Nat), m ≤ l.length →
    (∀ x ∈ l.take m, p x = true) → (∀ x, l[m]? = some x → p x = false) → l.takeWhile p = l.take m
  | [], _, _, _, _ => by simp
  | x :: xs, 0, _, _, hstop => by
    rw [List.takeWhile_cons_of_neg (by simp [hstop x rfl]), List.take_zero]
  | x :: xs, m + 1, hm, hpre, hstop => by
    rw [List.takeWhile_cons_of_pos (hpre x (.head _)), List.take_succ_cons,
      takeWhile_eq_take xs m (by simp at hm; omega) (fun y hy => hpre y (by simp [hy]))
        (fun y hy => hstop y (by simpa using hy))]

/-! ## Peers on the same chain -/

/-- A local head on the fork block `f` rejects a peer on the same chain whose head has passed
the forks before `f` but not `f`: `newID` counts `f` as passed at the local head, the filter
does not, so the peer's next fork is `f` and rule 1a finds it passed locally. -/
theorem newFilter_rejects_behind (crc : Crc Hash Sum) (config : ChainConfig) (genesis : Hash)
    (m : Nat) (hm : m < (gatherForks config).length) (head : Nat)
    (hpassed : ∀ f ∈ (gatherForks config).take m, f ≤ head)
    (hnext : head < (gatherForks config).getD m 0) :
    newFilter crc config genesis (fun _ => (gatherForks config).getD m 0)
      (newID crc config genesis head) = some .localIncompatibleOrStale := by
  obtain ⟨hsorted, hpos⟩ := gatherForks_sorted config
  set forks := gatherForks config with hforks
  have hfm : forks[m]? = some (forks.getD m 0) := by
    rw [List.getD_eq_getElem _ _ hm, List.getElem?_eq_getElem hm]
  -- the peer has passed exactly the first `m` forks
  have htake : (forks.takeWhile fun f => decide (f ≤ head)) = forks.take m :=
    takeWhile_eq_take forks m hm.le (fun f hf => by simpa using hpassed f hf)
      (fun x hx => by rw [hfm] at hx; cases hx; simpa using hnext)
  obtain ⟨s, hs, hid⟩ := newIDLoop_spec crc.update head forks (crc.checksum genesis)
  rw [htake, List.length_take, min_eq_left hm.le] at hs hid
  -- the forks before `f` are below it
  have hbelow : ∀ x ∈ forks.take m, forks.getD m 0 > x := by
    intro x hx
    obtain ⟨j, hj, rfl⟩ := List.getElem_of_mem hx
    rw [List.getElem_take, List.getD_eq_getElem _ _ hm]
    rw [List.length_take] at hj
    exact List.pairwise_iff_getElem.mp hsorted _ _ _ hm (by omega)
  have hsplit : forks ++ [maxUint64] =
      forks.take m ++ (forks.getD m 0 :: (forks.drop (m + 1) ++ [maxUint64])) := by
    rw [List.getD_eq_getElem _ _ hm, ← List.cons_append, ← List.drop_eq_getElem_cons hm,
      ← List.append_assoc, List.take_append_drop]
  unfold newFilter newID
  dsimp only
  rw [hid, hsplit, validate_append _ _ _ _ _ _ 0 hbelow, List.length_take, min_eq_left hm.le,
    Nat.zero_add, validate, if_neg (lt_irrefl _), if_pos hs]
  -- rule 1a: the peer's next fork is the local head
  have hf0 : 0 < forks.getD m 0 := hpos _ (by rw [List.getD_eq_getElem _ _ hm]; exact List.getElem_mem hm)
  exact if_pos ⟨hf0, le_rfl⟩

/-- Homestead at block 1: a local node at block 1 rejects a peer at genesis. -/
theorem newFilter_rejects_behind_homestead :
    newFilter (⟨id, (· + ·)⟩ : Crc Nat Nat) ⟨[⟨"HomesteadBlock", .bigInt (some 1)⟩]⟩ 0 (fun _ => 1)
      (newID ⟨id, (· + ·)⟩ ⟨[⟨"HomesteadBlock", .bigInt (some 1)⟩]⟩ 0 0) =
      some .localIncompatibleOrStale := by
  have hforks : gatherForks ⟨[⟨"HomesteadBlock", .bigInt (some 1)⟩]⟩ = [1] := by decide +kernel
  have h := newFilter_rejects_behind (⟨id, (· + ·)⟩ : Crc Nat Nat)
    ⟨[⟨"HomesteadBlock", .bigInt (some 1)⟩]⟩ 0 0 (by rw [hforks]; decide) 0
    (by rw [hforks]; simp) (by rw [hforks]; decide)
  rw [hforks] at h
  exact h

/-- Off the fork blocks, and with checksums that tell the passed prefixes apart, the filter
accepts every peer on the same chain, behind (rule 2), level (rule 1b) or ahead (rule 3). -/
theorem newFilter_accepts_same_chain (crc : Crc Hash Sum) (config : ChainConfig) (genesis : Hash)
    (hsums : (checksums crc.update (crc.checksum genesis) (gatherForks config)).Nodup)
    (h₁ h₂ : Nat) (hh₁ : h₁ < 2 ^ 64 - 1) (hfork : h₁ ∉ gatherForks config) :
    newFilter crc config genesis (fun _ => h₁) (newID crc config genesis h₂) = none := by
  unfold newFilter newID
  dsimp only
  set forks := gatherForks config with hforks
  set sums := checksums crc.update (crc.checksum genesis) forks with hsumsdef
  have hlen : sums.length = forks.length + 1 := length_checksums _ _ _
  -- the peer has passed the first `k` forks
  obtain ⟨s, hs, hid⟩ := newIDLoop_spec crc.update h₂ forks (crc.checksum genesis)
  set k := (forks.takeWhile fun f => decide (f ≤ h₂)).length with hkdef
  have hk : k ≤ forks.length := (List.takeWhile_sublist _).length_le
  -- the filter skips the first `i` forks, those below its head
  set pre := forks.takeWhile fun f => decide (h₁ > f) with hpredef
  have hi : pre.length ≤ forks.length := (List.takeWhile_sublist _).length_le
  have hpre : ∀ x ∈ pre, h₁ > x := fun x hx => by simpa using List.mem_takeWhile_imp hx
  have hsplit : forks ++ [maxUint64] =
      pre ++ (forks.dropWhile (fun f => decide (h₁ > f)) ++ [maxUint64]) := by
    rw [← List.append_assoc, List.takeWhile_append_dropWhile]
  -- and stops at the next fork, or at the sentry
  obtain ⟨g, rest, hrest, hg, hgi⟩ : ∃ g rest,
      forks.dropWhile (fun f => decide (h₁ > f)) ++ [maxUint64] = g :: rest ∧ ¬ h₁ > g ∧
        (pre.length < forks.length → forks.getD pre.length 0 = g) := by
    cases hd : forks.dropWhile (fun f => decide (h₁ > f)) with
    | nil =>
      refine ⟨maxUint64, [], rfl, by unfold maxUint64; omega, fun hlt => absurd hlt ?_⟩
      have := congrArg List.length (List.takeWhile_append_dropWhile (p := fun f => decide (h₁ > f))
        (l := forks))
      rw [hd, List.append_nil, ← hpredef] at this
      omega
    | cons g gs =>
      have hng := List.head_dropWhile_not (fun f => decide (h₁ > f)) (l := forks) (by simp [hd])
      simp only [hd, List.head_cons, decide_eq_false_iff_not] at hng
      refine ⟨g, gs ++ [maxUint64], rfl, hng, fun _ => ?_⟩
      rw [← List.takeWhile_append_dropWhile (p := fun f => decide (h₁ > f)) (l := forks), hd,
        List.getD_append_right _ _ _ _ le_rfl, Nat.sub_self]
      rfl
  have hne_of : ∀ j, j ≠ k → sums[j]? ≠ some s := fun j hj h => hj (getElem?_inj_of_nodup hsums h hs)
  rw [hid, hsplit, validate_append _ _ _ _ _ _ 0 hpre, Nat.zero_add, hrest, validate, if_neg hg]
  rcases lt_trichotomy k pre.length with hki | hki | hki
  · -- behind: rule 2 finds the peer's checksum at `k`, and its next fork is the `k`-th
    rw [if_neg (hne_of _ (by omega))]
    have hfind : (List.range pre.length).find? (fun j => decide (sums[j]? = some s)) = some k := by
      rw [List.find?_range_eq_some]
      refine ⟨by simpa using hs, List.mem_range.mpr hki, fun j hj => ?_⟩
      simpa using hne_of j (by omega)
    rw [hfind]
    dsimp only
    have hget : pre.getD k 0 = forks.getD k 0 := by
      conv_rhs => rw [← List.takeWhile_append_dropWhile (p := fun f => decide (h₁ > f)) (l := forks)]
      rw [List.getD_append _ _ _ _ (by omega)]
    rw [if_neg (by rw [List.getD_append _ _ _ _ (by omega), hget]; exact not_not.mpr rfl)]
  · -- level: rule 1, the peer's next fork is above the local head
    rw [← hki, if_pos hs]
    refine if_neg fun ⟨hpos, hge⟩ => ?_
    dsimp only at hpos hge
    by_cases hkl : k < forks.length
    · have hgk : forks.getD k 0 = g := by rw [hki]; exact hgi (by omega)
      have hmem : g ∈ forks := by
        rw [← hgk, List.getD_eq_getElem _ _ hkl]
        exact List.getElem_mem hkl
      rw [hgk] at hge
      exact hfork (by rw [show h₁ = g by omega]; exact hmem)
    · rw [List.getD_eq_default _ _ (by omega)] at hpos
      omega
  · -- ahead: rule 3 finds the peer's checksum among the later ones
    rw [if_neg (hne_of _ (by omega))]
    have hfind : (List.range pre.length).find? (fun j => decide (sums[j]? = some s)) = none :=
      List.find?_eq_none.mpr fun j hj h =>
        hne_of j (by rw [List.mem_range] at hj; omega) (by simpa using h)
    rw [hfind]
    dsimp only
    refine if_pos (List.any_eq_true.mpr ⟨k, List.mem_range'.mpr ⟨k - (pre.length + 1), by omega, by omega⟩, by simpa using hs⟩)

/-- Homestead at block 1: a local node at block 2 accepts a peer at genesis. -/
theorem newFilter_accepts_same_chain_homestead :
    newFilter (⟨id, (· + ·)⟩ : Crc Nat Nat) ⟨[⟨"HomesteadBlock", .bigInt (some 1)⟩]⟩ 0 (fun _ => 2)
      (newID ⟨id, (· + ·)⟩ ⟨[⟨"HomesteadBlock", .bigInt (some 1)⟩]⟩ 0 0) = none := by
  have hforks : gatherForks ⟨[⟨"HomesteadBlock", .bigInt (some 1)⟩]⟩ = [1] := by decide +kernel
  exact newFilter_accepts_same_chain _ _ 0 (by rw [hforks]; decide) 2 0 (by decide)
    (by rw [hforks]; decide)

end Filter

end GoMetadium.ForkId
