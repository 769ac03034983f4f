import GoMetadium.Trie.Resolve

set_option autoImplicit false

/-! # The trie as a map, over a run of calls (`trie/trie.go`)

`TryGet`, `TryUpdate` and `TryDelete` each give the trie the root the call returns when the
call succeeds, and keep the root when it fails. The trie is meant to be a finite map from keys
to non-empty values (`KeyMap`): `TryUpdate` with a non-empty value sets the key, `TryUpdate`
with an empty value and `TryDelete` remove it, and `TryGet` reads it (`applyCall`).

A root stands for a map when it stands for a canonical loaded trie that holds the map
(`Stands`): the hash nodes in it are whatever the database gives for their hashes, as `Rep`
allows. Each call on such a root succeeds, replies as the map does, and leaves a root that
stands for the map after the call (`call_spec`); by induction so does every run of calls
(`runCalls_spec`). The loaded trie the final root stands for is then the one canonical trie
that holds the final map, up to its nodes' flags.
-/

namespace GoMetadium.Trie

/-- A call of the trie's API: `t.TryGet(key)`, `t.TryUpdate(key, value)` or
`t.TryDelete(key)`. -/
inductive TrieCall where
  | tryGet (key : List UInt8)
  | tryUpdate (key value : List UInt8)
  | tryDelete (key : List UInt8)
  deriving DecidableEq, Repr

/-! ## Calls on the trie -/

section Run

variable (dbNode : List UInt8 → Option Node)

/-- One call on the trie whose root is `root`: its reply (the value for `TryGet`, nothing for
the others) and the root after it. The methods assign `t.root` only when the call succeeds. -/
def runCall (root : Node) : TrieCall → Except TrieError (Option (List UInt8)) × Node
  | .tryGet key =>
    match tryGetRoot dbNode root key with
    | .ok (v, root') => (.ok v, root')
    | .error e => (.error e, root)
  | .tryUpdate key v =>
    match tryUpdate dbNode root key v with
    | .ok root' => (.ok none, root')
    | .error e => (.error e, root)
  | .tryDelete key =>
    match tryDelete dbNode root key with
    | .ok root' => (.ok none, root')
    | .error e => (.error e, root)

/-- A run of calls, each on the root the one before it left: the replies and the last root. -/
def runCalls : Node → List TrieCall → List (Except TrieError (Option (List UInt8))) × Node
  | root, [] => ([], root)
  | root, c :: cs =>
    let step := runCall dbNode root c
    let rest := runCalls step.2 cs
    (step.1 :: rest.1, rest.2)

end Run

/-! ## The map the trie stands for -/

/-- A finite map from keys to values. -/
abbrev KeyMap := List UInt8 → Option (List UInt8)

/-- What a call replies on the map `m`, and the map after it. -/
def applyCall (m : KeyMap) : TrieCall → Option (List UInt8) × KeyMap
  | .tryGet key => (m key, m)
  | .tryUpdate key v => (none, Function.update m key (if v.length ≠ 0 then some v else none))
  | .tryDelete key => (none, Function.update m key none)

/-- The calls applied to the map one after another: the replies and the last map. -/
def applyCalls : KeyMap → List TrieCall → List (Option (List UInt8)) × KeyMap
  | m, [] => ([], m)
  | m, c :: cs =>
    let step := applyCall m c
    let rest := applyCalls step.2 cs
    (step.1 :: rest.1, rest.2)

/-- The loaded trie `t` holds the map `m`: the value of each key at the key's HEX form, and
nothing at a HEX key that is the form of no key. -/
structure Holds (t : Node) (m : KeyMap) : Prop where
  at_key : ∀ k, t.lookup (keybytesToHex k) = m k
  off_key : ∀ q, (∀ k, keybytesToHex k ≠ q) → t.lookup q = none

/-- The empty trie holds the empty map. -/
theorem holds_empty : Holds .nil fun _ => none :=
  ⟨fun _ => rfl, fun _ _ => rfl⟩

/-- A trie that changes what it holds at the HEX form of one key holds the map changed at that
key; the HEX form is the form of no other key. -/
theorem Holds.update {t t' : Node} {m : KeyMap} {key : List UInt8} {o : Option (List UInt8)}
    (h : Holds t m) (ht' : ∀ q, t'.lookup q = if q = keybytesToHex key then o else t.lookup q) :
    Holds t' (Function.update m key o) where
  at_key k := by
    rw [ht']
    by_cases hk : k = key
    · subst hk
      simp
    · rw [if_neg (fun e => hk (keybytesToHex_injective e)), Function.update_of_ne hk, h.at_key]
  off_key q hq := by
    rw [ht', if_neg (fun e => hq key e.symm), h.off_key q hq]

/-- Two tries that hold the same map hold the same value at every HEX key. -/
theorem Holds.lookup_eq {t t' : Node} {m : KeyMap} (h : Holds t m) (h' : Holds t' m) (q : List UInt8) :
    t.lookup q = t'.lookup q := by
  by_cases hq : ∃ k, keybytesToHex k = q
  · obtain ⟨k, rfl⟩ := hq
    rw [h.at_key, h'.at_key]
  · rw [h.off_key q (not_exists.mp hq), h'.off_key q (not_exists.mp hq)]

/-! ## One call -/

section Step

variable (keccak : List UInt8 → List UInt8) (dbNode : List UInt8 → Option Node)

/-- The root stands for the map `m`: for a canonical loaded trie that holds it. -/
def Stands (root : Node) (m : KeyMap) : Prop :=
  ∃ t, Rep keccak dbNode true root t ∧ t.WfRoot ∧ Holds t m

variable {keccak dbNode}

/-- The bound the public operations pass is enough for a root standing for a loaded trie,
against a bound one longer than the key for the loaded trie. -/
theorem fuelOk_fuelFor (n : Node) (key : List UInt8) : FuelOk n (key.length + 1) (fuelFor key) := by
  unfold FuelOk fuelFor
  split <;> omega

/-- `TryGet` reads the key's value and leaves a root that stands for the same map. -/
theorem tryGetRoot_stands {root : Node} {m : KeyMap} (h : Stands keccak dbNode root m)
    (key : List UInt8) :
    ∃ root', tryGetRoot dbNode root key = .ok (m key, root') ∧ Stands keccak dbNode root' m := by
  obtain ⟨t, hrep, hwf, hm⟩ := h
  -- the loaded trie gives the value and loads nothing
  have hget : tryGet dbNode ((keybytesToHex key).length + 1) t (keybytesToHex key) 0 =
      .ok (t.lookup (keybytesToHex key), t, false) :=
    tryGet_spec dbNode _ t _ 0 hwf (isKey_keybytesToHex key) (by simp)
  obtain ⟨n', b, hrun, hrep'⟩ := tryGet_rep _ hrep (fuelOk_fuelFor root _) hget
  rw [hm.at_key] at hrun
  refine ⟨if b then n' else root, ?_, t, ?_, hwf, hm⟩
  · simp only [tryGetRoot, hrun]
    rfl
  · cases b
    · exact hrep
    · exact hrep'

/-- `insert` of a value at the key's HEX form leaves a root that stands for the map with the
key set. -/
theorem insert_stands {root : Node} {m : KeyMap} (h : Stands keccak dbNode root m)
    (key value : List UInt8) :
    ∃ d root', insert dbNode (fuelFor (keybytesToHex key)) root [] (keybytesToHex key)
        (.value value) = .ok (d, root') ∧
      Stands keccak dbNode root' (Function.update m key (some value)) := by
  obtain ⟨t, hrep, hwf, hm⟩ := h
  obtain ⟨d, t', hins, hpost⟩ := insert_spec dbNode value ((keybytesToHex key).length + 1) t []
    (keybytesToHex key) hwf (isKey_keybytesToHex key) (by omega)
  obtain ⟨n', hins', hrep'⟩ := insert_rep _ hrep (fuelOk_fuelFor root _) hins
  exact ⟨d, n', hins', t', hrep', hpost.wf.wfRoot, hm.update hpost.lookup⟩

/-- `delete` at the key's HEX form leaves a root that stands for the map with the key
removed. -/
theorem delete_stands {root : Node} {m : KeyMap} (h : Stands keccak dbNode root m)
    (key : List UInt8) :
    ∃ d root', delete dbNode (fuelFor (keybytesToHex key)) root [] (keybytesToHex key) = .ok (d, root') ∧
      Stands keccak dbNode root' (Function.update m key none) := by
  obtain ⟨t, hrep, hwf, hm⟩ := h
  obtain ⟨d, t', hdel, hpost⟩ := delete_spec dbNode ((keybytesToHex key).length + 1) t []
    (keybytesToHex key) hwf (isKey_keybytesToHex key) (by omega)
  obtain ⟨n', hdel', hrep'⟩ := delete_rep _ hrep (fuelOk_fuelFor root _) hdel
  exact ⟨d, n', hdel', t', hrep', hpost.wf, hm.update hpost.lookup⟩

/-- One call on a root that stands for a map succeeds, replies as the map does, and leaves a
root that stands for the map after the call. -/
theorem call_spec {root : Node} {m : KeyMap} (h : Stands keccak dbNode root m) (c : TrieCall) :
    (runCall dbNode root c).1 = .ok (applyCall m c).1 ∧ Stands keccak dbNode (runCall dbNode root c).2 (applyCall m c).2 := by
  cases c with
  | tryGet key =>
    obtain ⟨root', hget, h'⟩ := tryGetRoot_stands h key
    simp only [runCall, hget, applyCall, true_and]
    exact h'
  | tryUpdate key value =>
    by_cases hv : value.length ≠ 0
    · -- a non-empty value is inserted
      obtain ⟨d, root', hins, h'⟩ := insert_stands h key value
      have hup : tryUpdate dbNode root key value = .ok root' := by
        simp only [tryUpdate, if_pos hv, hins]
        rfl
      simp only [runCall, hup, applyCall, if_pos hv, true_and]
      exact h'
    · -- an empty value deletes the key
      obtain ⟨d, root', hdel, h'⟩ := delete_stands h key
      have hup : tryUpdate dbNode root key value = .ok root' := by
        simp only [tryUpdate, if_neg hv, hdel]
        rfl
      simp only [runCall, hup, applyCall, if_neg hv, true_and]
      exact h'
  | tryDelete key =>
    obtain ⟨d, root', hdel, h'⟩ := delete_stands h key
    have hdel' : tryDelete dbNode root key = .ok root' := by
      simp only [tryDelete, hdel]
      rfl
    simp only [runCall, hdel', applyCall, true_and]
    exact h'

/-! ## Runs of calls -/

/-- Every run of calls from a root that stands for a map replies as the map does, call by
call, and ends at a root that stands for the map the calls leave. -/
theorem runCalls_spec : ∀ (calls : List TrieCall) {root : Node} {m : KeyMap},
    Stands keccak dbNode root m →
    (runCalls dbNode root calls).1 = (applyCalls m calls).1.map .ok ∧
      Stands keccak dbNode (runCalls dbNode root calls).2 (applyCalls m calls).2
  | [], _, _, h => ⟨rfl, h⟩
  | c :: cs, root, m, h => by
    obtain ⟨hreply, hstep⟩ := call_spec h c
    obtain ⟨hreplies, hlast⟩ := runCalls_spec cs hstep
    simp only [runCalls, applyCalls, List.map_cons]
    exact ⟨by rw [hreply, hreplies], hlast⟩

/-- **The trie is a finite map.** On a root that stands for a canonical loaded trie holding a
map, with every hash node in it standing for what the database gives for its hash, every run
of `TryGet`, `TryUpdate` and `TryDelete` succeeds; each `TryGet` returns the value of the map
the calls before it left; and the last root stands for a canonical loaded trie that holds the
last map, the only canonical trie that holds it up to the flags of its nodes. -/
theorem runCalls_finite_map {root t : Node} {m : KeyMap} (hrep : Rep keccak dbNode true root t)
    (hwf : t.WfRoot) (hm : Holds t m) (calls : List TrieCall) :
    (runCalls dbNode root calls).1 = (applyCalls m calls).1.map .ok ∧
      ∃ t', Rep keccak dbNode true (runCalls dbNode root calls).2 t' ∧ t'.WfRoot ∧
        Holds t' (applyCalls m calls).2 ∧
        ∀ t'', t''.WfRoot → Holds t'' (applyCalls m calls).2 → t''.eraseFlags = t'.eraseFlags := by
  obtain ⟨hreplies, t', hrep', hwf', hm'⟩ := runCalls_spec calls ⟨t, hrep, hwf, hm⟩
  refine ⟨hreplies, t', hrep', hwf', hm', ?_⟩
  intro t'' hwf'' hm''
  exact Node.WfRoot.eraseFlags_eq hwf'' hwf' (hm''.lookup_eq hm')

/-- An update then a read of the same key on the empty trie, with no database: the read
returns the value written. -/
theorem runCalls_finite_map_update_get :
    (runCalls (fun _ => none) .nil [.tryUpdate [1] [2], .tryGet [1]]).1 = [.ok none, .ok (some [2])] := by
  rw [(runCalls_finite_map (@Rep.nil id (fun _ => none) true) Node.wfRoot_nil holds_empty _).1]
  decide

end Step

end GoMetadium.Trie
