import GoMetadium.Trie.Decode
import GoMetadium.Trie.Hasher

set_option autoImplicit false

/-! # Merkle proofs (`trie/proof.go`)

`t.Prove(key, fromLevel, proofDb)` collects the nodes on the path of the key, loading hash
nodes on the way, and writes to `proofDb` each one whose stored form is a hash node, and the
root in any case, under its hash and with its encoding. `VerifyProof(rootHash, key, proofDb)`
walks the same path over the nodes decoded from `proofDb`, from the root hash on: inside one
node with `get`, and to the next node at each hash node `get` stops at.

The proof database is a function from keys to the stored bytes, `none` when `Get` returns
`nil`; `Prove` returns its writes in order. `VerifyProof`'s loop has no bound in Go (a proof
whose nodes lead back to an earlier hash makes it loop); the model bounds it by `fuel`.
-/

namespace GoMetadium.Trie

/-- The errors of `VerifyProof`. -/
inductive ProofError where
  /-- `"proof node %d (hash %064x) missing"`. -/
  | missing (i : Nat) (hash : List UInt8)
  /-- `"bad proof node %d: %v"`. -/
  | bad (i : Nat) (e : DecodeError)
  /-- A Go panic in `get`: a key that runs out at a full node, or an invalid node. -/
  | invalid
  /-- Not Go: the bound on the loop ran out. -/
  | depth
  deriving DecidableEq, Repr

/-- `get(tn, key)`: the walk of the key inside one decoded node, to the rest of the key and
the hash node it stops at, or to the value or nothing it finds. -/
def get : Node → List UInt8 → Except ProofError (List UInt8 × Node)
  | .short nkey nval _, key =>
    if key.length < nkey.length ∨ nkey ≠ key.take nkey.length then .ok ([], .nil)
    else get nval (key.drop nkey.length)
  | .full cs _, key =>
    match key.head?.bind nibIndex with
    | some i => get (cs i) key.tail
    | none => .error .invalid
  | .hash h, key => .ok (key, .hash h)
  | .nil, key => .ok (key, .nil)
  | .value v, _ => .ok ([], .value v)

/-- The loop of `VerifyProof` from its `i`-th step, looking for the node of `wantHash` with
the rest of the key `key`. -/
def verifyLoop (proofDb : List UInt8 → Option (List UInt8)) :
    Nat → Nat → List UInt8 → List UInt8 → Except ProofError (Option (List UInt8) × Nat)
  | 0, _, _, _ => .error .depth
  | fuel + 1, i, wantHash, key =>
    match proofDb wantHash with
    | none => .error (.missing i wantHash)
    | some buf =>
      match decodeNode (some wantHash) buf with
      | .error e => .error (.bad i e)
      | .ok n => do
        let (keyrest, cld) ← get n key
        match cld with
        -- the trie does not contain the key
        | .nil => return (none, i)
        | .hash h => verifyLoop proofDb fuel (i + 1) h keyrest
        | .value v => return (some v, i + 1)
        -- `get` returns no other node; Go's switch would go round with the same hash
        | _ => verifyLoop proofDb fuel (i + 1) wantHash key

/-- `VerifyProof(rootHash, key, proofDb)`: the value and the number of proof nodes used. -/
def verifyProof (proofDb : List UInt8 → Option (List UInt8)) (fuel : Nat)
    (rootHash key : List UInt8) : Except ProofError (Option (List UInt8) × Nat) :=
  verifyLoop proofDb fuel 0 rootHash (keybytesToHex key)

section Prove

variable (dbNode : List UInt8 → Option Node) (keccak : List UInt8 → List UInt8)

/-- The first loop of `t.Prove`: the nodes on the path of the key, hash nodes loaded. -/
def proofPath : Nat → Node → List UInt8 → Except TrieError (List Node)
  | 0, _, _ => .error .depth
  | fuel + 1, tn, key =>
    if key = [] ∨ tn.isNil then .ok []
    else
      match tn with
      | .short nkey nval _ =>
        -- on a mismatch the trie does not contain the key, and the loop ends at this node
        if key.length < nkey.length ∨ nkey ≠ key.take nkey.length then .ok [tn]
        else (tn :: ·) <$> proofPath fuel nval (key.drop nkey.length)
      | .full cs _ =>
        match key.head?.bind nibIndex with
        | some i => (tn :: ·) <$> proofPath fuel (cs i) key.tail
        | none => .error .invalid
      | .hash h => do
        let tn ← resolveHash dbNode h []
        proofPath fuel tn key
      | _ => .error .invalid

/-- The second loop of `t.Prove` from the `i`-th node: each node collapsed and stored, and
written (hash and encoding) when its stored form is a hash node or it is the root, once the
first `fromLevel` such nodes are skipped. -/
def proofWrites : List Node → Nat → Nat → List (List UInt8 × List UInt8)
  | [], _, _ => []
  | n :: ns, i, fromLevel =>
    let c := (hashChildren keccak false n).1
    let hn := (store keccak false c false).1
    if hn.isHash ∨ i = 0 then
      if fromLevel > 0 then proofWrites ns (i + 1) (fromLevel - 1)
      else
        let enc := c.toItem.encode
        let hash := hn.hashOf?.getD (keccak enc)
        (hash, enc) :: proofWrites ns (i + 1) fromLevel
    else proofWrites ns (i + 1) fromLevel

/-- `t.Prove(key, fromLevel, proofDb)`: the writes to `proofDb`, in order. -/
def prove (root : Node) (key : List UInt8) (fromLevel : Nat) :
    Except TrieError (List (List UInt8 × List UInt8)) := do
  let key := keybytesToHex key
  let nodes ← proofPath dbNode (fuelFor key) root key
  return proofWrites keccak nodes 0 fromLevel

end Prove

/-- The proof database that holds the writes, the later write of a key winning. -/
def proofDbOf (writes : List (List UInt8 × List UInt8)) (k : List UInt8) : Option (List UInt8) :=
  (writes.reverse.find? fun w => w.1 = k).map Prod.snd

/-! ## The empty trie -/

/-- The proof of any key in the empty trie holds no node: the walk ends at the nil root at
once. `VerifyProof` against the empty root then finds no root node and fails at its first
step, where `Get` finds no value. -/
theorem verifyProof_emptyTrie (dbNode : List UInt8 → Option Node)
    (keccak : List UInt8 → List UInt8) (key : List UInt8) (fromLevel fuel : Nat) :
    (hashRoot keccak false .nil).1 = .hash (emptyRoot keccak) ∧
      prove dbNode keccak .nil key fromLevel = .ok [] ∧
      tryGetRoot dbNode .nil key = .ok (none, .nil) ∧
      verifyProof (proofDbOf []) (fuel + 1) (emptyRoot keccak) key =
        .error (.missing 0 (emptyRoot keccak)) := by
  refine ⟨rfl, ?_, ?_, rfl⟩
  · simp [prove, fuelFor, proofPath, proofWrites, Node.isNil, bind, Except.bind, pure, Except.pure]
  · simp [tryGetRoot, fuelFor, tryGet, bind, Except.bind, pure, Except.pure]

end GoMetadium.Trie
