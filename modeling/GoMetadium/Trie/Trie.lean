import GoMetadium.Trie.Node

set_option autoImplicit false

/-! # Reading and writing the trie (`trie/trie.go`)

`tryGet`, `insert` and `delete` walk a HEX key down the nodes, loading a hash node from the
database when they meet one (`resolveHash`). The database is a parameter here: `dbNode h` is
what `t.db.node(h)` returns for the hash `h`, a node in memory form or nothing.

Each function carries a bound on the depth of its recursion (`fuel`), which Go does not
have: a database could make a hash node load a node that leads back to the same hash, where
Go recurses until its stack is exhausted. The public operations pass `fuelFor key`, and the
fuel lemmas of the semantic files show it is never exhausted on the tries they build.

`insert` and `delete` return whether they changed anything (`dirty`) and the new node; a
node they do not change is returned as it was, with its flags.
-/

namespace GoMetadium.Trie

variable (dbNode : List UInt8 → Option Node)

/-- `t.resolveHash(n, pfx)`. -/
def resolveHash (n pfx : List UInt8) : Except TrieError Node :=
  match dbNode n with
  | some node => .ok node
  | none => .error (.missingNode n pfx)

/-- `t.resolve(n, pfx)`: a hash node loaded, any other node as it is. -/
def resolve (n : Node) (pfx : List UInt8) : Except TrieError Node :=
  match n with
  | .hash h => resolveHash dbNode h pfx
  | _ => .ok n

/-- The child index `key[i]`; a Go panic past the end of the key. -/
def nibbleAt (key : List UInt8) (i : Nat) : Except TrieError (Fin 17) :=
  match key[i]?.bind nibIndex with
  | some j => .ok j
  | none => .error .invalid

/-- `t.tryGet(origNode, key, pos)`: the value, the node with the hash nodes met on the way
loaded, and whether any was. -/
def tryGet : Nat → Node → List UInt8 → Nat → Except TrieError (Option (List UInt8) × Node × Bool)
  | 0, _, _, _ => .error .depth
  | fuel + 1, origNode, key, pos =>
    match origNode with
    | .nil => .ok (none, .nil, false)
    | .value v => .ok (some v, .value v, false)
    | .short nkey nval flags =>
      if key.length - pos < nkey.length ∨ nkey ≠ (key.drop pos).take nkey.length then
        -- key not found in trie
        .ok (none, origNode, false)
      else do
        let (value, newnode, didResolve) ← tryGet fuel nval key (pos + nkey.length)
        if didResolve then return (value, .short nkey newnode flags, true)
        return (value, origNode, false)
    | .full cs flags => do
      let i ← nibbleAt key pos
      let (value, newnode, didResolve) ← tryGet fuel (cs i) key (pos + 1)
      if didResolve then return (value, .full (Function.update cs i newnode) flags, true)
      return (value, origNode, false)
    | .hash h => do
      let child ← resolveHash dbNode h (key.take pos)
      let (value, newnode, _) ← tryGet fuel child key pos
      return (value, newnode, true)

/-- `t.insert(n, pfx, key, value)`. -/
def insert : Nat → Node → List UInt8 → List UInt8 → Node → Except TrieError (Bool × Node)
  | 0, _, _, _, _ => .error .depth
  | fuel + 1, n, pfx, key, value =>
    if key = [] then
      match n, value with
      | .value v, .value v' => .ok (v != v', value)
      -- `value.(valueNode)` panics when the value inserted over a value is not one
      | .value _, _ => .error .invalid
      | _, _ => .ok (true, value)
    else
      match n with
      | .short nkey nval _ =>
        let matchlen := prefixLen key nkey
        -- If the whole key matches, keep this short node as is and only update the value.
        if matchlen = nkey.length then do
          let (dirty, nn) ← insert fuel nval (pfx ++ key.take matchlen) (key.drop matchlen) value
          if !dirty then return (false, n)
          return (true, .short nkey nn newFlag)
        else do
          -- Otherwise branch out at the index where they differ.
          let i₁ ← nibbleAt nkey matchlen
          let (_, c₁) ← insert fuel .nil (pfx ++ nkey.take (matchlen + 1)) (nkey.drop (matchlen + 1)) nval
          let i₂ ← nibbleAt key matchlen
          let (_, c₂) ← insert fuel .nil (pfx ++ key.take (matchlen + 1)) (key.drop (matchlen + 1)) value
          let branch := Node.full (Function.update (Function.update emptyChildren i₁ c₁) i₂ c₂) newFlag
          -- Replace this shortNode with the branch if it occurs at index 0.
          if matchlen = 0 then return (true, branch)
          -- Otherwise, replace it with a short node leading up to the branch.
          return (true, .short (key.take matchlen) branch newFlag)
      | .full cs _ => do
        let i ← nibbleAt key 0
        let (dirty, nn) ← insert fuel (cs i) (pfx ++ key.take 1) (key.drop 1) value
        if !dirty then return (false, n)
        return (true, .full (Function.update cs i nn) newFlag)
      | .nil => .ok (true, .short key value newFlag)
      | .hash h => do
        -- We've hit a part of the trie that isn't loaded yet. Load the node and insert into it.
        let rn ← resolveHash dbNode h pfx
        let (dirty, nn) ← insert fuel rn pfx key value
        if !dirty then return (false, rn)
        return (true, nn)
      | .value _ => .error .invalid

/-- The loop of `delete` over the children left: the index of the only non-nil child, `-1` if
there is none, `-2` if there are two or more. -/
def remainingPos (cs : Fin 17 → Node) : Int :=
  (List.finRange 17).foldl
    (fun pos i => if pos = -2 ∨ (cs i).isNil then pos else if pos = -1 then (i.val : Int) else -2)
    (-1)

/-- `t.delete(n, pfx, key)`. -/
def delete : Nat → Node → List UInt8 → List UInt8 → Except TrieError (Bool × Node)
  | 0, _, _, _ => .error .depth
  | fuel + 1, n, pfx, key =>
    match n with
    | .short nkey nval _ =>
      let matchlen := prefixLen key nkey
      if matchlen < nkey.length then .ok (false, n) -- don't replace n on mismatch
      else if matchlen = key.length then .ok (true, .nil) -- remove n entirely for whole matches
      else do
        -- The key is longer than n.Key. Remove the remaining suffix from the subtrie.
        let (dirty, child) ← delete fuel nval (pfx ++ key.take nkey.length) (key.drop nkey.length)
        if !dirty then return (false, n)
        match child with
        -- Deleting from the subtrie reduced it to another short node: merge the nodes.
        | .short ckey cval _ => return (true, .short (nkey ++ ckey) cval newFlag)
        | _ => return (true, .short nkey child newFlag)
    | .full cs _ => do
      let i ← nibbleAt key 0
      let (dirty, nn) ← delete fuel (cs i) (pfx ++ key.take 1) (key.drop 1)
      if !dirty then return (false, n)
      let cs := Function.update cs i nn
      -- Reduce the full node to a short node if only one entry is left.
      let pos := remainingPos cs
      if h : 0 ≤ pos ∧ pos < 17 then
        let p : Fin 17 := ⟨pos.toNat, by omega⟩
        if p ≠ 16 then do
          -- If the remaining entry is a short node, it replaces n and its key gets the
          -- missing nibble tacked to the front.
          let cnode ← resolve dbNode (cs p) pfx
          match cnode with
          | .short ckey cval _ => return (true, .short (Fin.toByte p :: ckey) cval newFlag)
          | _ => return (true, .short [Fin.toByte p] (cs p) newFlag)
        else return (true, .short [Fin.toByte p] (cs p) newFlag)
      else
        -- n still contains at least two values and cannot be reduced.
        return (true, .full cs newFlag)
    | .value _ => .ok (true, .nil)
    | .nil => .ok (false, .nil)
    | .hash h => do
      -- We've hit a part of the trie that isn't loaded yet. Load the node and delete from it.
      let rn ← resolveHash dbNode h pfx
      let (dirty, nn) ← delete fuel rn pfx key
      if !dirty then return (false, rn)
      return (true, nn)

/-! ## The operations on a trie's root -/

/-- The recursion bound the public operations pass: two levels for each nibble of the HEX key
(a hash node and the node it loads), and room for the nodes built at its end. -/
def fuelFor (key : List UInt8) : Nat := 2 * key.length + 4

/-- `t.TryGet(key)`: the value, and the new root (the old one with the nodes loaded on the
way when any was). -/
def tryGetRoot (root : Node) (key : List UInt8) : Except TrieError (Option (List UInt8) × Node) := do
  let key := keybytesToHex key
  let (value, newroot, didResolve) ← tryGet dbNode (fuelFor key) root key 0
  return (value, if didResolve then newroot else root)

/-- `t.TryUpdate(key, value)`: the new root; an empty value deletes. -/
def tryUpdate (root : Node) (key value : List UInt8) : Except TrieError Node := do
  let k := keybytesToHex key
  if value.length ≠ 0 then
    let (_, n) ← insert dbNode (fuelFor k) root [] k (.value value)
    return n
  else
    let (_, n) ← delete dbNode (fuelFor k) root [] k
    return n

/-- `t.TryDelete(key)`: the new root. -/
def tryDelete (root : Node) (key : List UInt8) : Except TrieError Node := do
  let k := keybytesToHex key
  let (_, n) ← delete dbNode (fuelFor k) root [] k
  return n

end GoMetadium.Trie
