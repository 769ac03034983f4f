import GoMetadium.Trie.Canonical
import GoMetadium.Trie.Delete
import GoMetadium.Trie.Hasher
import GoMetadium.Trie.Insert
import GoMetadium.Lib.Except

set_option autoImplicit false

/-! # Tries with hash nodes in them

A trie in memory holds hash nodes where its nodes have not been loaded from the database. Such
a node stands for a loaded trie (`Rep`): each hash node for the trie that the database gives
for its hash, and that hashes back to it. The relation also says what the flags of the nodes
may hold: a cached hash is the node's hash, a clean node with a hash is in the database, and a
clean node with none is small enough to stay inline in its parent.

`tryGet`, `insert` and `delete` on a node that stands for a loaded trie do what they do on the
loaded trie, and give back a node that stands for what they give on it (`tryGet_rep`,
`insert_rep`, `delete_rep`): the semantic files then say what that is. The fuel they need is
twice that of the loaded trie, one level for each hash node and one for the node it loads.
-/

namespace GoMetadium.Trie

open Node

/-! ## Unchanged nodes come back as they were -/

section Clean

variable (dbNode : List UInt8 → Option Node)

/-- `insert` that changes nothing returns the node it was given, unless that was a hash node
(it then returns the node loaded for it). -/
theorem insert_clean_eq {fuel : Nat} {n : Node} (hn : n.isHash = false) {pfx key : List UInt8}
    {value n' : Node} (h : insert dbNode fuel n pfx key value = .ok (false, n')) : n' = n := by
  cases fuel with
  | zero => simp [insert] at h
  | succ fuel =>
    by_cases hk : key = []
    · subst hk
      cases n <;> cases value <;> simp_all [insert]
    cases n with
    | short nkey nval f =>
      rw [insert, if_neg hk] at h
      simp only at h
      split_ifs at h
      · obtain ⟨⟨d, nn⟩, -, h⟩ := Except.bind_eq_ok.mp h
        cases d <;> simp_all [pure, Except.pure]
      all_goals
        -- a split always builds a new branch
        simp only [bind, Except.bind] at h
        repeat' split at h
        all_goals simp [pure, Except.pure] at h
    | full cs f =>
      rw [insert, if_neg hk] at h
      obtain ⟨i, -, h⟩ := Except.bind_eq_ok.mp h
      obtain ⟨⟨d, nn⟩, -, h⟩ := Except.bind_eq_ok.mp h
      cases d <;> simp_all [pure, Except.pure]
    | nil => simp [insert, hk] at h
    | value => simp [insert, hk] at h
    | hash => simp [isHash] at hn

/-- `delete` that changes nothing returns the node it was given, unless that was a hash node. -/
theorem delete_clean_eq {fuel : Nat} {n : Node} (hn : n.isHash = false) {pfx key : List UInt8}
    {n' : Node} (h : delete dbNode fuel n pfx key = .ok (false, n')) : n' = n := by
  cases fuel with
  | zero => simp [delete] at h
  | succ fuel =>
    cases n with
    | short nkey nval f =>
      rw [delete] at h
      simp only at h
      split_ifs at h
      · simp at h
        exact h.symm
      · simp at h
      · obtain ⟨⟨d, c⟩, -, h⟩ := Except.bind_eq_ok.mp h
        cases d
        · simp_all [pure, Except.pure]
        · simp only [Bool.not_true, Bool.false_eq_true, if_false] at h
          repeat' split at h
          all_goals simp [pure, Except.pure] at h
    | full cs f =>
      rw [delete] at h
      obtain ⟨i, -, h⟩ := Except.bind_eq_ok.mp h
      obtain ⟨⟨d, nn⟩, -, h⟩ := Except.bind_eq_ok.mp h
      cases d
      · simp_all [pure, Except.pure]
      · simp only [Bool.not_true, Bool.false_eq_true, if_false, bind, Except.bind] at h
        repeat' split at h
        all_goals simp [pure, Except.pure] at h
    | nil => simp [delete] at h; exact h.symm
    | value => simp [delete] at h
    | hash => simp [isHash] at hn

/-- What `delete` changed is never a hash node. -/
theorem isHash_of_delete_dirty : ∀ {fuel : Nat} {n : Node} {pfx key : List UInt8} {n' : Node},
    delete dbNode fuel n pfx key = .ok (true, n') → n'.isHash = false
  | 0, _, _, _, _, h => by simp [delete] at h
  | fuel + 1, n, pfx, key, n', h => by
    cases n with
    | short nkey nval f =>
      rw [delete] at h
      simp only at h
      split_ifs at h
      · simp at h
      · simp at h
        subst h
        rfl
      · simp only [bind, Except.bind] at h
        repeat' split at h
        all_goals simp [pure, Except.pure] at h
        all_goals subst h; rfl
    | full cs f =>
      rw [delete] at h
      simp only [bind, Except.bind] at h
      repeat' split at h
      all_goals simp [pure, Except.pure] at h
      all_goals subst h; rfl
    | nil => simp [delete] at h
    | value => simp [delete] at h; subst h; rfl
    | hash hh =>
      rw [delete] at h
      obtain ⟨rn, -, h⟩ := Except.bind_eq_ok.mp h
      obtain ⟨⟨d, nn⟩, hrec, h⟩ := Except.bind_eq_ok.mp h
      cases d
      · simp [pure, Except.pure] at h
      · simp [pure, Except.pure] at h
        rw [← h]
        exact isHash_of_delete_dirty hrec

/-- A key that ends at a node other than a value puts the value in its place. -/
theorem insert_key_nil {n : Node} (hn : n.isValue = false) (fuel : Nat) (pfx : List UInt8)
    (value : Node) : insert dbNode (fuel + 1) n pfx [] value = .ok (true, value) := by
  cases n <;> simp_all [insert, isValue]

/-- Resolving a node that is not a hash node gives it back. -/
theorem resolve_of_isHash {n : Node} (hn : n.isHash = false) (pfx : List UInt8) :
    resolve dbNode n pfx = .ok n := by
  cases n <;> simp_all [resolve, isHash]

/-- The loop of `delete` over the children left sees only which children are nil. -/
theorem remainingPos_congr {cs ts : Fin 17 → Node} (h : ∀ j, (cs j).isNil = (ts j).isNil) :
    remainingPos cs = remainingPos ts := by
  simp only [remainingPos, h]

/-- Each of the three walks fails at once without fuel. -/
theorem exists_fuel_of_tryGet {fuel : Nat} {n : Node} {key : List UInt8} {pos : Nat}
    {r : Option (List UInt8) × Node × Bool} (h : tryGet dbNode fuel n key pos = .ok r) :
    ∃ f, fuel = f + 1 := by
  cases fuel with
  | zero => simp [tryGet] at h
  | succ f => exact ⟨f, rfl⟩

theorem exists_fuel_of_insert {fuel : Nat} {n : Node} {pfx key : List UInt8} {value : Node}
    {r : Bool × Node} (h : insert dbNode fuel n pfx key value = .ok r) : ∃ f, fuel = f + 1 := by
  cases fuel with
  | zero => simp [insert] at h
  | succ f => exact ⟨f, rfl⟩

theorem exists_fuel_of_delete {fuel : Nat} {n : Node} {pfx key : List UInt8} {r : Bool × Node}
    (h : delete dbNode fuel n pfx key = .ok r) : ∃ f, fuel = f + 1 := by
  cases fuel with
  | zero => simp [delete] at h
  | succ f => exact ⟨f, rfl⟩

end Clean

/-! ## Standing for a loaded trie -/

section Rep

variable (keccak : List UInt8 → List UInt8) (dbNode : List UInt8 → Option Node)

/-- The form the loaded node `t` takes in its parent, with `force` at the root: what `hash`
makes of it with its flags cleared, its hash node, or the collapsed node itself when that is
encoded in fewer than 32 bytes. -/
def stored (force : Bool) (t : Node) : Node := (hash keccak false t.eraseFlags force).1

/-- What the flags `f` of a node that stands for `t` may hold: a cached hash is the hash of
`t`, and the node is in the database when it is also clean; a clean node with no hash stays
inline in its parent. -/
def CacheOk (force : Bool) (f : NodeFlag) (t : Node) : Prop :=
  (∀ h, f.hash = some h → stored keccak force t = .hash h ∧ (f.dirty = false → (dbNode h).isSome)) ∧
  (f.hash = none → f.dirty = false → (stored keccak force t).isHash = false)

/-- `Rep force n t`: the node `n` of a trie in memory stands for the loaded node `t`, at the
root when `force` is set (the root's hash is forced), under a parent otherwise. A hash node
stands for what the node the database gives for its hash stands for, when that hashes back to
it; short and full nodes stand for nodes of the same key whose children they stand for. -/
inductive Rep : Bool → Node → Node → Prop
  | nil (force : Bool) : Rep force .nil .nil
  | value (force : Bool) (v : List UInt8) : Rep force (.value v) (.value v)
  | short {force : Bool} {k : List UInt8} {c t : Node} {f f' : NodeFlag} :
      Rep false c t → CacheOk keccak dbNode force f (.short k t f') →
      Rep force (.short k c f) (.short k t f')
  | full {force : Bool} {cs ts : Fin 17 → Node} {f f' : NodeFlag} :
      (∀ i, Rep false (cs i) (ts i)) → CacheOk keccak dbNode force f (.full ts f') →
      Rep force (.full cs f) (.full ts f')
  | hash {force : Bool} {h : List UInt8} {m t : Node} :
      dbNode h = some m → (m.isShort || m.isFull) = true → Rep force m t →
      stored keccak force t = .hash h → Rep force (.hash h) t

/-- The fuel a walk through hash nodes is given, against `fuel₁` for the loaded trie: twice
as much, less one when it does not start at a hash node. -/
def FuelOk (n : Node) (fuel₁ fuel : Nat) : Prop := 2 * fuel₁ ≤ fuel + (if n.isHash then 0 else 1)

theorem FuelOk.child {n : Node} {fuel₁ fuel : Nat} (hn : n.isHash = false)
    (h : FuelOk n (fuel₁ + 1) (fuel + 1)) (c : Node) : FuelOk c fuel₁ fuel := by
  unfold FuelOk at h ⊢
  rw [hn] at h
  split <;> simp at h <;> omega

theorem FuelOk.loaded {hh : List UInt8} {fuel₁ fuel : Nat} (h : FuelOk (.hash hh) fuel₁ (fuel + 1))
    {m : Node} (hm : m.isHash = false) : FuelOk m fuel₁ fuel := by
  unfold FuelOk at h ⊢
  rw [hm]
  simp only [isHash, if_true] at h
  simp only [Bool.false_eq_true, if_false]
  omega

theorem FuelOk.eq_zero {n : Node} {fuel₁ : Nat} (h : FuelOk n fuel₁ 0) : fuel₁ = 0 := by
  have : (if n.isHash then 0 else 1) ≤ 1 := by split <;> omega
  unfold FuelOk at h
  omega

theorem isHash_of_isShort_or_isFull {m : Node} (hm : (m.isShort || m.isFull) = true) :
    m.isHash = false := by
  cases m <;> simp_all [isShort, isFull, isHash]

theorem cacheOk_newFlag (force : Bool) (t : Node) : CacheOk keccak dbNode force newFlag t :=
  ⟨fun _ h => by simp [newFlag] at h, fun _ h => by simp [newFlag] at h⟩

variable {keccak dbNode}

/-- What a node stands for is loaded: it has no hash node. -/
theorem Rep.isHash_right {force : Bool} {n t : Node} (h : Rep keccak dbNode force n t) :
    t.isHash = false := by
  induction h with
  | hash _ _ _ _ ih => exact ih
  | _ => rfl

/-- A node that the database can give stands for a short or a full node. -/
theorem Rep.isShort_or_isFull {force : Bool} {m t : Node} (h : Rep keccak dbNode force m t)
    (hm : (m.isShort || m.isFull) = true) : (t.isShort || t.isFull) = true := by
  cases h with
  | short _ _ => rfl
  | full _ _ => rfl
  | _ => simp [isShort, isFull] at hm

/-- A node is a value exactly when what it stands for is. -/
theorem Rep.isValue_eq {force : Bool} {n t : Node} (h : Rep keccak dbNode force n t) :
    n.isValue = t.isValue := by
  cases h with
  | hash _ hm hmt _ =>
    have := hmt.isShort_or_isFull hm
    cases t <;> simp_all [isShort, isFull, isValue]
  | _ => rfl

/-- A node is nil exactly when what it stands for is. -/
theorem Rep.isNil_eq {force : Bool} {n t : Node} (h : Rep keccak dbNode force n t) :
    n.isNil = t.isNil := by
  cases h with
  | hash _ hm hmt _ =>
    have := hmt.isShort_or_isFull hm
    cases t <;> simp_all [isShort, isFull, isNil]
  | _ => rfl

/-- Children that stand for children stand for them after one of each is replaced. -/
theorem rep_update {cs ts : Fin 17 → Node} (h : ∀ j, Rep keccak dbNode false (cs j) (ts j))
    (i : Fin 17) {nn tn : Node} (hi : Rep keccak dbNode false nn tn) (j : Fin 17) :
    Rep keccak dbNode false (Function.update cs i nn j) (Function.update ts i tn j) := by
  by_cases hj : j = i
  · subst hj
    simpa using hi
  · simpa [Function.update_of_ne hj] using h j

/-! ## Reading -/

/-- `tryGet` through hash nodes finds what it finds in the loaded trie, and gives back a node
that stands for the same trie. -/
theorem tryGet_rep : ∀ (fuel : Nat) {fuel₁ : Nat} {force : Bool} {n t : Node} {key : List UInt8}
    {pos : Nat} {v : Option (List UInt8)} {t' : Node} {b' : Bool},
    Rep keccak dbNode force n t → FuelOk n fuel₁ fuel →
    tryGet dbNode fuel₁ t key pos = .ok (v, t', b') →
    ∃ n' b, tryGet dbNode fuel n key pos = .ok (v, n', b) ∧ Rep keccak dbNode force n' t
  | 0, _, _, _, _, _, _, _, _, _, _, hf, ht => by
    obtain rfl := hf.eq_zero
    simp [tryGet] at ht
  | fuel + 1, fuel₁, force, n, t, key, pos, v, t', b', hrep, hf, ht => by
    cases hrep with
    | nil force =>
      obtain ⟨f₁, rfl⟩ := exists_fuel_of_tryGet dbNode ht
      simp only [tryGet, Except.ok.injEq, Prod.mk.injEq] at ht
      obtain ⟨rfl, -, -⟩ := ht
      exact ⟨_, _, rfl, Rep.nil force⟩
    | value force w =>
      obtain ⟨f₁, rfl⟩ := exists_fuel_of_tryGet dbNode ht
      simp only [tryGet, Except.ok.injEq, Prod.mk.injEq] at ht
      obtain ⟨rfl, -, -⟩ := ht
      exact ⟨_, _, rfl, Rep.value force w⟩
    | short hc hcache =>
      obtain ⟨f₁, rfl⟩ := exists_fuel_of_tryGet dbNode ht
      rw [tryGet] at ht ⊢
      split_ifs at ht ⊢ with hm
      · simp only [Except.ok.injEq, Prod.mk.injEq] at ht
        obtain ⟨rfl, -, -⟩ := ht
        exact ⟨_, _, rfl, Rep.short hc hcache⟩
      · obtain ⟨⟨v₀, tn, b₀⟩, hrec, hrest⟩ := Except.bind_eq_ok.mp ht
        obtain rfl : v₀ = v := by
          cases b₀ <;> simp [pure, Except.pure] at hrest <;> exact hrest.1
        obtain ⟨nn, b, hnrec, hnrep⟩ := tryGet_rep fuel hc (hf.child rfl _) hrec
        rw [hnrec]
        cases b
        · exact ⟨_, false, rfl, Rep.short hc hcache⟩
        · exact ⟨_, true, rfl, Rep.short hnrep hcache⟩
    | full hcs hcache =>
      obtain ⟨f₁, rfl⟩ := exists_fuel_of_tryGet dbNode ht
      rw [tryGet] at ht ⊢
      obtain ⟨i, hi, ht⟩ := Except.bind_eq_ok.mp ht
      obtain ⟨⟨v₀, tn, b₀⟩, hrec, hrest⟩ := Except.bind_eq_ok.mp ht
      obtain rfl : v₀ = v := by
        cases b₀ <;> simp [pure, Except.pure] at hrest <;> exact hrest.1
      obtain ⟨nn, b, hnrec, hnrep⟩ := tryGet_rep fuel (hcs i) (hf.child rfl _) hrec
      simp only [hi, hnrec, bind, Except.bind]
      cases b
      · exact ⟨_, false, rfl, Rep.full hcs hcache⟩
      · refine ⟨_, true, rfl, Rep.full (fun j => ?_) hcache⟩
        simpa using rep_update hcs i hnrep j
    | hash hdb hm hmrep hst =>
      -- the node is loaded, and the walk goes on from it at the same place in the key
      obtain ⟨nn, b, hnrec, hnrep⟩ := tryGet_rep fuel hmrep (hf.loaded (isHash_of_isShort_or_isFull hm)) ht
      simp only [tryGet, resolveHash, hdb, hnrec, bind, Except.bind]
      exact ⟨_, true, rfl, hnrep⟩

/-! ## Writing -/

/-- `wrapShort` keeps standing for what it wraps. -/
theorem rep_wrapShort (key : List UInt8) {c t : Node} (h : Rep keccak dbNode false c t) :
    Rep keccak dbNode false (wrapShort key c) (wrapShort key t) := by
  unfold wrapShort
  split
  · exact h
  · exact Rep.short h (cacheOk_newFlag keccak dbNode false _)

/-- `insert` of a value through hash nodes changes what it changes in the loaded trie, and
gives back a node that stands for what it gives there. -/
theorem insert_rep : ∀ (fuel : Nat) {fuel₁ : Nat} {force : Bool} {n t : Node}
    {pfx key v : List UInt8} {d : Bool} {t' : Node},
    Rep keccak dbNode force n t → FuelOk n fuel₁ fuel →
    insert dbNode fuel₁ t pfx key (.value v) = .ok (d, t') →
    ∃ n', insert dbNode fuel n pfx key (.value v) = .ok (d, n') ∧ Rep keccak dbNode force n' t'
  | 0, _, _, _, _, _, _, _, _, _, _, hf, ht => by
    obtain rfl := hf.eq_zero
    simp [insert] at ht
  | fuel + 1, fuel₁, force, n, t, pfx, key, v, d, t', hrep, hf, ht => by
    by_cases hk : key = []
    · -- the key ends here: the value takes the node's place
      subst hk
      obtain ⟨f₁, rfl⟩ := exists_fuel_of_insert dbNode ht
      cases hv : t.isValue
      · rw [insert_key_nil dbNode hv] at ht
        obtain ⟨rfl, rfl⟩ := Prod.mk.inj (Except.ok.inj ht)
        exact ⟨_, insert_key_nil dbNode (hrep.isValue_eq.trans hv) fuel pfx _, Rep.value force v⟩
      · obtain ⟨w, rfl⟩ := isValue_iff.mp hv
        cases hrep with
        | value force w =>
          rw [insert_value_nil] at ht ⊢
          obtain ⟨rfl, rfl⟩ := Prod.mk.inj (Except.ok.inj ht)
          exact ⟨_, rfl, Rep.value force v⟩
        | hash _ hm hmrep _ => exact absurd (hmrep.isShort_or_isFull hm) (by simp [isShort, isFull])
    cases hrep with
    | nil force =>
      obtain ⟨f₁, rfl⟩ := exists_fuel_of_insert dbNode ht
      rw [insert_nil, wrapShort, if_neg hk] at ht
      obtain ⟨rfl, rfl⟩ := Prod.mk.inj (Except.ok.inj ht)
      refine ⟨_, by rw [insert_nil, wrapShort, if_neg hk], ?_⟩
      exact Rep.short (Rep.value false v) (cacheOk_newFlag keccak dbNode force _)
    | value force w =>
      obtain ⟨f₁, rfl⟩ := exists_fuel_of_insert dbNode ht
      simp [insert, hk] at ht
    | short hc hcache =>
      obtain ⟨f₁, rfl⟩ := exists_fuel_of_insert dbNode ht
      rw [insert, if_neg hk] at ht ⊢
      simp only at ht ⊢
      split_ifs at ht ⊢ with hml hml0
      · -- the node's key is matched: into its child
        obtain ⟨⟨d₀, tn⟩, hrec, hrest⟩ := Except.bind_eq_ok.mp ht
        obtain ⟨nn, hnrec, hnrep⟩ := insert_rep fuel hc (hf.child rfl _) hrec
        rw [hnrec]
        cases d₀ <;> simp [pure, Except.pure] at hrest <;> obtain ⟨rfl, rfl⟩ := hrest
        · exact ⟨_, rfl, Rep.short hc hcache⟩
        · exact ⟨_, rfl, Rep.short hnrep (cacheOk_newFlag keccak dbNode force _)⟩
      all_goals
        -- the keys part: a branch of the old child and the new value, on either side
        obtain ⟨i₁, hi₁, ht⟩ := Except.bind_eq_ok.mp ht
        obtain ⟨r₁, hr₁, ht⟩ := Except.bind_eq_ok.mp ht
        obtain ⟨i₂, hi₂, ht⟩ := Except.bind_eq_ok.mp ht
        obtain ⟨r₂, hr₂, ht⟩ := Except.bind_eq_ok.mp ht
        obtain ⟨f₂, rfl⟩ := exists_fuel_of_insert dbNode hr₁
        obtain ⟨fuel, rfl⟩ : ∃ f, fuel = f + 1 := ⟨fuel - 1, by unfold FuelOk at hf; simp [isHash] at hf; omega⟩
        rw [insert_nil] at hr₁ hr₂
        obtain rfl := Except.ok.inj hr₁
        obtain rfl := Except.ok.inj hr₂
        simp only [pure, Except.pure, Except.ok.injEq, Prod.mk.injEq] at ht
        obtain ⟨rfl, rfl⟩ := ht
        simp only [hi₁, hi₂, insert_nil, bind, Except.bind, pure, Except.pure]
      · exact ⟨_, rfl, Rep.full (rep_update (rep_update (fun _ => Rep.nil false) i₁
          (rep_wrapShort _ hc)) i₂ (rep_wrapShort _ (Rep.value false v)))
          (cacheOk_newFlag keccak dbNode force _)⟩
      · exact ⟨_, rfl, Rep.short (Rep.full (rep_update (rep_update (fun _ => Rep.nil false) i₁
          (rep_wrapShort _ hc)) i₂ (rep_wrapShort _ (Rep.value false v)))
          (cacheOk_newFlag keccak dbNode false _)) (cacheOk_newFlag keccak dbNode force _)⟩
    | full hcs hcache =>
      obtain ⟨f₁, rfl⟩ := exists_fuel_of_insert dbNode ht
      rw [insert, if_neg hk] at ht ⊢
      obtain ⟨i, hi, ht⟩ := Except.bind_eq_ok.mp ht
      obtain ⟨⟨d₀, tn⟩, hrec, hrest⟩ := Except.bind_eq_ok.mp ht
      obtain ⟨nn, hnrec, hnrep⟩ := insert_rep fuel (hcs i) (hf.child rfl _) hrec
      simp only [hi, hnrec, bind, Except.bind]
      cases d₀ <;> simp [pure, Except.pure] at hrest <;> obtain ⟨rfl, rfl⟩ := hrest
      · exact ⟨_, rfl, Rep.full hcs hcache⟩
      · exact ⟨_, rfl, Rep.full (rep_update hcs i hnrep) (cacheOk_newFlag keccak dbNode force _)⟩
    | hash hdb hm hmrep hst =>
      -- the node is loaded, and the insertion goes on from it
      obtain ⟨nn, hnrec, hnrep⟩ :=
        insert_rep fuel hmrep (hf.loaded (isHash_of_isShort_or_isFull hm)) ht
      rw [insert, if_neg hk]
      simp only [resolveHash, hdb, hnrec, bind, Except.bind]
      cases d
      · -- nothing changed: the loaded node is kept in place of the hash node
        obtain rfl := insert_clean_eq dbNode hmrep.isHash_right ht
        exact ⟨_, rfl, hmrep⟩
      · exact ⟨_, rfl, hnrep⟩

/-- The node `delete` makes of a full node left with the one child `a` at `p`, after `a` is
resolved: through hash nodes it stands for what it is in the loaded trie. -/
theorem rep_collapse {force : Bool} {a b : Node} (h : Rep keccak dbNode false a b) (p : Fin 17)
    (pfx : List UInt8) {d : Bool} {t' : Node}
    (ht : (match b with
      | .short ckey cval _ =>
        (pure (true, Node.short (Fin.toByte p :: ckey) cval newFlag) : Except TrieError (Bool × Node))
      | _ => pure (true, Node.short [Fin.toByte p] b newFlag)) = .ok (d, t')) :
    ∃ n', (do
      let cnode ← resolve dbNode a pfx
      match cnode with
      | .short ckey cval _ =>
        (pure (true, Node.short (Fin.toByte p :: ckey) cval newFlag) : Except TrieError (Bool × Node))
      | _ => pure (true, Node.short [Fin.toByte p] a newFlag)) = .ok (d, n') ∧
      Rep keccak dbNode force n' t' := by
  have hnew := cacheOk_newFlag keccak dbNode force
  cases h with
  | nil =>
    simp only [pure, Except.pure, Except.ok.injEq, Prod.mk.injEq] at ht
    obtain ⟨rfl, rfl⟩ := ht
    exact ⟨_, rfl, Rep.short (Rep.nil false) (hnew _)⟩
  | value _ w =>
    simp only [pure, Except.pure, Except.ok.injEq, Prod.mk.injEq] at ht
    obtain ⟨rfl, rfl⟩ := ht
    exact ⟨_, rfl, Rep.short (Rep.value false w) (hnew _)⟩
  | short hc hcache =>
    -- a short child takes over the branch, its key one nibble longer
    simp only [pure, Except.pure, Except.ok.injEq, Prod.mk.injEq] at ht
    obtain ⟨rfl, rfl⟩ := ht
    exact ⟨_, rfl, Rep.short hc (hnew _)⟩
  | full hcs hcache =>
    simp only [pure, Except.pure, Except.ok.injEq, Prod.mk.injEq] at ht
    obtain ⟨rfl, rfl⟩ := ht
    exact ⟨_, rfl, Rep.short (Rep.full hcs hcache) (hnew _)⟩
  | hash hdb hm hmrep hst =>
    -- a hash node is loaded to see whether it is a short node
    simp only [resolve, resolveHash, hdb, bind, Except.bind]
    cases hmrep with
    | short hc hcache =>
      simp only [pure, Except.pure, Except.ok.injEq, Prod.mk.injEq] at ht
      obtain ⟨rfl, rfl⟩ := ht
      exact ⟨_, rfl, Rep.short hc (hnew _)⟩
    | full hcs hcache =>
      simp only [pure, Except.pure, Except.ok.injEq, Prod.mk.injEq] at ht
      obtain ⟨rfl, rfl⟩ := ht
      exact ⟨_, rfl, Rep.short (Rep.hash hdb hm (Rep.full hcs hcache) hst) (hnew _)⟩
    | _ => simp [isShort, isFull] at hm

/-- `delete` through hash nodes changes what it changes in the loaded trie, and gives back a
node that stands for what it gives there. -/
theorem delete_rep : ∀ (fuel : Nat) {fuel₁ : Nat} {force : Bool} {n t : Node}
    {pfx key : List UInt8} {d : Bool} {t' : Node},
    Rep keccak dbNode force n t → FuelOk n fuel₁ fuel →
    delete dbNode fuel₁ t pfx key = .ok (d, t') →
    ∃ n', delete dbNode fuel n pfx key = .ok (d, n') ∧ Rep keccak dbNode force n' t'
  | 0, _, _, _, _, _, _, _, _, _, hf, ht => by
    obtain rfl := hf.eq_zero
    simp [delete] at ht
  | fuel + 1, fuel₁, force, n, t, pfx, key, d, t', hrep, hf, ht => by
    have hnew := cacheOk_newFlag keccak dbNode force
    cases hrep with
    | nil force =>
      obtain ⟨f₁, rfl⟩ := exists_fuel_of_delete dbNode ht
      simp only [delete, Except.ok.injEq, Prod.mk.injEq] at ht
      obtain ⟨rfl, rfl⟩ := ht
      exact ⟨_, rfl, Rep.nil force⟩
    | value force w =>
      obtain ⟨f₁, rfl⟩ := exists_fuel_of_delete dbNode ht
      simp only [delete, Except.ok.injEq, Prod.mk.injEq] at ht
      obtain ⟨rfl, rfl⟩ := ht
      exact ⟨_, rfl, Rep.nil force⟩
    | short hc hcache =>
      obtain ⟨f₁, rfl⟩ := exists_fuel_of_delete dbNode ht
      rw [delete] at ht ⊢
      simp only at ht ⊢
      split_ifs at ht ⊢
      · simp only [Except.ok.injEq, Prod.mk.injEq] at ht
        obtain ⟨rfl, rfl⟩ := ht
        exact ⟨_, rfl, Rep.short hc hcache⟩
      · simp only [Except.ok.injEq, Prod.mk.injEq] at ht
        obtain ⟨rfl, rfl⟩ := ht
        exact ⟨_, rfl, Rep.nil force⟩
      · -- the key runs on below the node
        obtain ⟨⟨d₀, tc⟩, hrec, hrest⟩ := Except.bind_eq_ok.mp ht
        obtain ⟨c', hnrec, hnrep⟩ := delete_rep fuel hc (hf.child rfl _) hrec
        rw [hnrec]
        cases d₀
        · simp [pure, Except.pure] at hrest
          obtain ⟨rfl, rfl⟩ := hrest
          exact ⟨_, rfl, Rep.short hc hcache⟩
        · -- what the child became decides whether the keys are joined
          have hch := isHash_of_delete_dirty dbNode hnrec
          cases hnrep with
          | nil =>
            simp [pure, Except.pure] at hrest
            obtain ⟨rfl, rfl⟩ := hrest
            exact ⟨_, rfl, Rep.short (Rep.nil false) (hnew _)⟩
          | value _ w =>
            simp [pure, Except.pure] at hrest
            obtain ⟨rfl, rfl⟩ := hrest
            exact ⟨_, rfl, Rep.short (Rep.value false w) (hnew _)⟩
          | short hcc _ =>
            simp [pure, Except.pure] at hrest
            obtain ⟨rfl, rfl⟩ := hrest
            exact ⟨_, rfl, Rep.short hcc (hnew _)⟩
          | full hcs hcache' =>
            simp [pure, Except.pure] at hrest
            obtain ⟨rfl, rfl⟩ := hrest
            exact ⟨_, rfl, Rep.short (Rep.full hcs hcache') (hnew _)⟩
          | hash => simp [isHash] at hch
    | @full _ cs ts f f' hcs hcache =>
      obtain ⟨f₁, rfl⟩ := exists_fuel_of_delete dbNode ht
      rw [delete] at ht ⊢
      obtain ⟨i, hi, ht⟩ := Except.bind_eq_ok.mp ht
      obtain ⟨⟨d₀, tn⟩, hrec, hrest⟩ := Except.bind_eq_ok.mp ht
      obtain ⟨nn, hnrec, hnrep⟩ := delete_rep fuel (hcs i) (hf.child rfl _) hrec
      simp only [hi, hnrec, bind, Except.bind]
      cases d₀
      · simp [pure, Except.pure] at hrest
        obtain ⟨rfl, rfl⟩ := hrest
        exact ⟨_, rfl, Rep.full hcs hcache⟩
      -- the children left, and so the shape `delete` gives, are the same on both sides
      have hrep' := rep_update hcs i hnrep
      have hpos := remainingPos_congr fun j => (hrep' j).isNil_eq
      simp only [Bool.not_true, Bool.false_eq_true, if_false] at hrest ⊢
      simp only [hpos]
      split at hrest
      · rename_i hP
        rw [dif_pos hP]
        split_ifs at hrest ⊢ with h16
        · rw [resolve_of_isHash dbNode (hrep' _).isHash_right] at hrest
          exact rep_collapse (hrep' _) _ pfx hrest
        · simp only [pure, Except.pure, Except.ok.injEq, Prod.mk.injEq] at hrest
          obtain ⟨rfl, rfl⟩ := hrest
          exact ⟨_, rfl, Rep.short (hrep' _) (hnew _)⟩
      · rename_i hP
        rw [dif_neg hP]
        simp only [pure, Except.pure, Except.ok.injEq, Prod.mk.injEq] at hrest
        obtain ⟨rfl, rfl⟩ := hrest
        exact ⟨_, rfl, Rep.full hrep' (hnew _)⟩
    | hash hdb hm hmrep hst =>
      obtain ⟨nn, hnrec, hnrep⟩ :=
        delete_rep fuel hmrep (hf.loaded (isHash_of_isShort_or_isFull hm)) ht
      rw [delete]
      simp only [resolveHash, hdb, hnrec, bind, Except.bind]
      cases d
      · obtain rfl := delete_clean_eq dbNode hmrep.isHash_right ht
        exact ⟨_, rfl, hmrep⟩
      · exact ⟨_, rfl, hnrep⟩

end Rep

end GoMetadium.Trie
