import Mathlib

set_option autoImplicit false

/-! # The state database and its journal (`core/state/statedb.go`, `state_object.go`, `journal.go`)

A `StateDB` keeps the accounts a transaction touches as live `stateObject`s, read from the
account trie on first use. Every change made through it is recorded in a journal by an entry
that knows how to undo it; `Snapshot` remembers the length of the journal, and
`RevertToSnapshot` undoes the entries after that point, newest first, dropping later
snapshots too.

The model follows the source's types. Maps are functions, a Go pointer to a state object is
the object itself (no object is changed once it is out of the live set), and a method that
changes an object stores it back in the live set, where Go mutates it in place. A method of
the source that would dereference a nil object or slice out of bounds panics; the model
returns `none` there. Reads that Go caches (an account loaded from the trie, a storage slot
or code loaded from the database) are pure here: a cached read returns what an uncached one
would. The package has methods of one name in both cases on one type (`SetBalance` and
`setBalance`); the model keeps Go's names, capitals included.

The database, the hash function, the root of the empty trie and the address of the RIPEMD
precompile do not change during a transaction and are parameters (`Database`, `Env`).
-/

namespace GoMetadium.State

/-! ## Accounts and state objects -/

/-- The constants of the state code: the hash function, the root of the empty trie and the
address of the RIPEMD precompile. -/
structure Env (Address Hash : Type) where
  keccak : List UInt8 → Hash
  emptyRoot : Hash
  ripemd : Address

/-- `emptyCodeHash`, the hash of no code. -/
def Env.emptyCodeHash {Address Hash : Type} (env : Env Address Hash) : Hash := env.keccak []

/-- `Account`: what the account trie holds for an address. -/
structure Account (Hash : Type) where
  nonce : Nat
  balance : Int
  root : Hash
  codeHash : Hash

/-- What the state reads through its database and its account trie: the account of an
address, the storage trie under a root (the zero value where it has none), and the code
of a code hash. -/
structure Database (Address Hash : Type) where
  account : Address → Option (Account Hash)
  storage : Hash → Hash → Hash
  code : Hash → List UInt8

/-- `Storage`, a map from keys to values. -/
abbrev Storage (Hash : Type) := Hash → Option Hash

/-- `stateObject`. `code = none` is Go's nil slice: no code loaded or set. -/
structure StateObject (Address Hash : Type) where
  address : Address
  data : Account Hash
  code : Option (List UInt8)
  originStorage : Storage Hash
  pendingStorage : Storage Hash
  dirtyStorage : Storage Hash
  dirtyCode : Bool
  suicided : Bool
  deleted : Bool

/-- `types.Log`; `AddLog` fills in the last four fields. -/
structure Log (Address Hash : Type) where
  address : Address
  topics : List Hash
  data : List UInt8
  txHash : Hash
  blockHash : Hash
  txIndex : Nat
  index : UInt64

variable {Address Hash : Type} [DecidableEq Address] [DecidableEq Hash] [Zero Hash]

/-- `newObject(db, address, data)`; a zero root is the empty trie's. -/
def newObject (env : Env Address Hash) (address : Address) (data : Account Hash) :
    StateObject Address Hash :=
  { address := address
    data := { data with root := if data.root = 0 then env.emptyRoot else data.root }
    code := none
    originStorage := fun _ => none
    pendingStorage := fun _ => none
    dirtyStorage := fun _ => none
    dirtyCode := false
    suicided := false
    deleted := false }

namespace StateObject

variable (o : StateObject Address Hash)

/-- `s.empty()`, by EIP-161: no nonce, no balance and no code. -/
def empty (env : Env Address Hash) : Bool :=
  o.data.nonce = 0 ∧ o.data.balance = 0 ∧ o.data.codeHash = env.emptyCodeHash

/-- `s.setBalance(amount)`, not journalled. -/
def setBalance (amount : Int) : StateObject Address Hash :=
  { o with data := { o.data with balance := amount } }

/-- `s.setNonce(nonce)`, not journalled. -/
def setNonce (nonce : Nat) : StateObject Address Hash :=
  { o with data := { o.data with nonce := nonce } }

/-- `s.setCode(codeHash, code)`, not journalled. -/
def setCode (codeHash : Hash) (code : Option (List UInt8)) : StateObject Address Hash :=
  { o with code := code, data := { o.data with codeHash := codeHash }, dirtyCode := true }

/-- `s.setState(key, value)`, not journalled. -/
def setState (key value : Hash) : StateObject Address Hash :=
  { o with dirtyStorage := Function.update o.dirtyStorage key (some value) }

/-- `s.Code(db)`: the code set or loaded, none for the empty code hash, else the
database's. -/
def Code (env : Env Address Hash) (db : Database Address Hash) : Option (List UInt8) :=
  match o.code with
  | some c => some c
  | none => if o.data.codeHash = env.emptyCodeHash then none else some (db.code o.data.codeHash)

/-- `s.GetCommittedState(db, key)`: a pending write, else the cached original, else the
storage trie. -/
def GetCommittedState (db : Database Address Hash) (key : Hash) : Hash :=
  match o.pendingStorage key with
  | some v => v
  | none =>
    match o.originStorage key with
    | some v => v
    | none => db.storage o.data.root key

/-- `s.GetState(db, key)`: a write of this transaction, else the committed value. -/
def GetState (db : Database Address Hash) (key : Hash) : Hash :=
  match o.dirtyStorage key with
  | some v => v
  | none => o.GetCommittedState db key

end StateObject

/-! ## The journal -/

/-- The journal entries, each with what its revert needs. -/
inductive JournalEntry (Address Hash : Type) where
  | createObjectChange (account : Address)
  | resetObjectChange (prev : StateObject Address Hash)
  | suicideChange (account : Address) (prev : Bool) (prevbalance : Int)
  | balanceChange (account : Address) (prev : Int)
  | nonceChange (account : Address) (prev : Nat)
  | storageChange (account : Address) (key prevalue : Hash)
  | codeChange (account : Address) (prevcode : Option (List UInt8)) (prevhash : Hash)
  | refundChange (prev : UInt64)
  | addLogChange (txhash : Hash)
  | addPreimageChange (hash : Hash)
  | touchChange (account : Address)

/-- `dirtied()`: the address an entry changes, if any. -/
def JournalEntry.dirtied : JournalEntry Address Hash → Option Address
  | .createObjectChange a | .suicideChange a _ _ | .balanceChange a _ | .nonceChange a _
  | .storageChange a _ _ | .codeChange a _ _ | .touchChange a => some a
  | .resetObjectChange _ | .refundChange _ | .addLogChange _ | .addPreimageChange _ => none

/-- `journal`: the entries, and for each address the number of changes to it. -/
structure Journal (Address Hash : Type) where
  entries : List (JournalEntry Address Hash)
  dirties : Address → Int

/-- `j.append(entry)`. -/
def Journal.append (j : Journal Address Hash) (entry : JournalEntry Address Hash) :
    Journal Address Hash :=
  { entries := j.entries ++ [entry]
    dirties :=
      match entry.dirtied with
      | some a => Function.update j.dirties a (j.dirties a + 1)
      | none => j.dirties }

/-- `j.dirty(addr)`: one more change counted, with no entry. -/
def Journal.dirty (j : Journal Address Hash) (a : Address) : Journal Address Hash :=
  { j with dirties := Function.update j.dirties a (j.dirties a + 1) }

/-- `revision`: a snapshot's id and the journal length at it. -/
structure Revision where
  id : Nat
  journalIndex : Nat

/-- `StateDB`, with the fields a transaction's changes go through. -/
structure StateDB (Address Hash : Type) where
  db : Database Address Hash
  stateObjects : Address → Option (StateObject Address Hash)
  refund : UInt64
  thash : Hash
  bhash : Hash
  txIndex : Nat
  logs : Hash → List (Log Address Hash)
  logSize : UInt64
  preimages : Hash → Option (List UInt8)
  journal : Journal Address Hash
  validRevisions : List Revision
  nextRevisionId : Nat

/-- `New(root, db)`: no object loaded, no logs, no preimages and an empty journal over the
account trie `db` reads. -/
def New (db : Database Address Hash) : StateDB Address Hash :=
  { db := db
    stateObjects := fun _ => none
    refund := 0
    thash := 0
    bhash := 0
    txIndex := 0
    logs := fun _ => []
    logSize := 0
    preimages := fun _ => none
    journal := ⟨[], fun _ => 0⟩
    validRevisions := []
    nextRevisionId := 0 }

namespace StateDB

variable (env : Env Address Hash) (s : StateDB Address Hash)

/-! ## Reading -/

/-- `getDeletedStateObject(addr)`: the live object, deleted or not, else the account the
trie holds. -/
def getDeletedStateObject (a : Address) : Option (StateObject Address Hash) :=
  match s.stateObjects a with
  | some o => some o
  | none => (s.db.account a).map (newObject env a)

/-- `getStateObject(addr)`: as `getDeletedStateObject`, but nothing for a deleted object. -/
def getStateObject (a : Address) : Option (StateObject Address Hash) :=
  match s.getDeletedStateObject env a with
  | some o => if o.deleted then none else some o
  | none => none

/-- `setStateObject(object)`. -/
def setStateObject (o : StateObject Address Hash) : StateDB Address Hash :=
  { s with stateObjects := Function.update s.stateObjects o.address (some o) }

/-- `s.journal.append(entry)`. -/
def appendJournal (e : JournalEntry Address Hash) : StateDB Address Hash :=
  { s with journal := s.journal.append e }

/-- `Exist(addr)`; true for a suicided account too. -/
def Exist (a : Address) : Bool := (s.getStateObject env a).isSome

/-- `Empty(addr)`. -/
def Empty (a : Address) : Bool :=
  match s.getStateObject env a with
  | some o => o.empty env
  | none => true

/-- `GetBalance(addr)`. -/
def GetBalance (a : Address) : Int :=
  match s.getStateObject env a with
  | some o => o.data.balance
  | none => 0

/-- `GetNonce(addr)`. -/
def GetNonce (a : Address) : Nat :=
  match s.getStateObject env a with
  | some o => o.data.nonce
  | none => 0

/-- `GetCode(addr)`; Go's nil is the empty list. -/
def GetCode (a : Address) : List UInt8 :=
  match s.getStateObject env a with
  | some o => (o.Code env s.db).getD []
  | none => []

/-- `GetCodeSize(addr)`: the length of the code set or loaded, else the size the database
gives for the code hash. -/
def GetCodeSize (a : Address) : Nat :=
  match s.getStateObject env a with
  | none => 0
  | some o =>
    match o.code with
    | some c => c.length
    | none => (s.db.code o.data.codeHash).length

/-- `GetCodeHash(addr)`. -/
def GetCodeHash (a : Address) : Hash :=
  match s.getStateObject env a with
  | some o => o.data.codeHash
  | none => 0

/-- `GetState(addr, hash)`. -/
def GetState (a : Address) (key : Hash) : Hash :=
  match s.getStateObject env a with
  | some o => o.GetState s.db key
  | none => 0

/-- `GetCommittedState(addr, hash)`. -/
def GetCommittedState (a : Address) (key : Hash) : Hash :=
  match s.getStateObject env a with
  | some o => o.GetCommittedState s.db key
  | none => 0

/-- `HasSuicided(addr)`. -/
def HasSuicided (a : Address) : Bool :=
  match s.getStateObject env a with
  | some o => o.suicided
  | none => false

/-- `GetRefund()`. -/
def GetRefund : UInt64 := s.refund

/-- `GetLogs(hash)`; Go's nil is the empty list. -/
def GetLogs (h : Hash) : List (Log Address Hash) := s.logs h

/-- `Preimages()`. -/
def Preimages : Hash → Option (List UInt8) := s.preimages

end StateDB

/-! ## Changing an object

The journalled methods of `stateObject`, on a live object `o` of the state `s`: each
records an entry and stores the changed object. -/

namespace StateObject

variable (env : Env Address Hash) (o : StateObject Address Hash)

/-- `s.touch()`: an entry that changes nothing but marks the account. -/
def touch (s : StateDB Address Hash) : StateDB Address Hash :=
  let s := s.appendJournal (.touchChange o.address)
  -- the RIPEMD exception: put the precompile in the dirty set even if the touch is undone
  if o.address = env.ripemd then { s with journal := s.journal.dirty o.address } else s

/-- `s.SetBalance(amount)`. -/
def SetBalance (amount : Int) (s : StateDB Address Hash) : StateDB Address Hash :=
  (s.appendJournal (.balanceChange o.address o.data.balance)).setStateObject (o.setBalance amount)

/-- `s.AddBalance(amount)`: by EIP-158 a zero amount touches an empty account. -/
def AddBalance (amount : Int) (s : StateDB Address Hash) : StateDB Address Hash :=
  if amount = 0 then (if o.empty env then o.touch env s else s)
  else o.SetBalance (o.data.balance + amount) s

/-- `s.SubBalance(amount)`. -/
def SubBalance (amount : Int) (s : StateDB Address Hash) : StateDB Address Hash :=
  if amount = 0 then s else o.SetBalance (o.data.balance - amount) s

/-- `s.SetNonce(nonce)`. -/
def SetNonce (nonce : Nat) (s : StateDB Address Hash) : StateDB Address Hash :=
  (s.appendJournal (.nonceChange o.address o.data.nonce)).setStateObject (o.setNonce nonce)

/-- `s.SetCode(codeHash, code)`: the entry keeps the code as `Code` reads it. -/
def SetCode (codeHash : Hash) (code : List UInt8) (s : StateDB Address Hash) :
    StateDB Address Hash :=
  (s.appendJournal (.codeChange o.address (o.Code env s.db) o.data.codeHash)).setStateObject
    (o.setCode codeHash (some code))

/-- `s.SetState(db, key, value)`: nothing if the value is the one there. -/
def SetState (key value : Hash) (s : StateDB Address Hash) : StateDB Address Hash :=
  let prev := o.GetState s.db key
  if prev = value then s
  else (s.appendJournal (.storageChange o.address key prev)).setStateObject (o.setState key value)

end StateObject

namespace StateDB

variable (env : Env Address Hash) (s : StateDB Address Hash)

/-! ## Changing the state -/

/-- `createObject(addr)`: a new object in place of any there is, deleted or not, which the
journal keeps; the new object and the replaced one. `Account{}` has no code hash, which
`newObject` makes `emptyCodeHash`. -/
def createObject (a : Address) :
    StateDB Address Hash × StateObject Address Hash × Option (StateObject Address Hash) :=
  let prev := s.getDeletedStateObject env a
  let newobj := (newObject env a ⟨0, 0, 0, env.emptyCodeHash⟩).setNonce 0
  let s := match prev with
    | none => s.appendJournal (.createObjectChange a)
    | some p => s.appendJournal (.resetObjectChange p)
  (s.setStateObject newobj, newobj, prev)

/-- `GetOrNewStateObject(addr)`. -/
def GetOrNewStateObject (a : Address) : StateDB Address Hash × StateObject Address Hash :=
  match s.getStateObject env a with
  | some o => (s, o)
  | none =>
    let (s, o, _) := s.createObject env a
    (s, o)

/-- `AddBalance(addr, amount)`. -/
def AddBalance (a : Address) (amount : Int) : StateDB Address Hash :=
  let (s, o) := s.GetOrNewStateObject env a
  o.AddBalance env amount s

/-- `SubBalance(addr, amount)`. -/
def SubBalance (a : Address) (amount : Int) : StateDB Address Hash :=
  let (s, o) := s.GetOrNewStateObject env a
  o.SubBalance amount s

/-- `SetBalance(addr, amount)`. -/
def SetBalance (a : Address) (amount : Int) : StateDB Address Hash :=
  let (s, o) := s.GetOrNewStateObject env a
  o.SetBalance amount s

/-- `SetNonce(addr, nonce)`. -/
def SetNonce (a : Address) (nonce : Nat) : StateDB Address Hash :=
  let (s, o) := s.GetOrNewStateObject env a
  o.SetNonce nonce s

/-- `SetCode(addr, code)`. -/
def SetCode (a : Address) (code : List UInt8) : StateDB Address Hash :=
  let (s, o) := s.GetOrNewStateObject env a
  o.SetCode env (env.keccak code) code s

/-- `SetState(addr, key, value)`. -/
def SetState (a : Address) (key value : Hash) : StateDB Address Hash :=
  let (s, o) := s.GetOrNewStateObject env a
  o.SetState key value s

/-- `CreateAccount(addr)`: the balance of a replaced account is carried over. -/
def CreateAccount (a : Address) : StateDB Address Hash :=
  let (s, newObj, prev) := s.createObject env a
  match prev with
  | some p => s.setStateObject (newObj.setBalance p.data.balance)
  | none => s

/-- `Suicide(addr)`: marks the account and clears its balance; false for no account. -/
def Suicide (a : Address) : StateDB Address Hash × Bool :=
  match s.getStateObject env a with
  | none => (s, false)
  | some o =>
    let s := s.appendJournal (.suicideChange a o.suicided o.data.balance)
    (s.setStateObject ({ o with suicided := true }.setBalance 0), true)

/-- `AddRefund(gas)`. -/
def AddRefund (gas : UInt64) : StateDB Address Hash :=
  { s.appendJournal (.refundChange s.refund) with refund := s.refund + gas }

/-- `SubRefund(gas)`: panics below zero, after the entry is recorded. -/
def SubRefund (gas : UInt64) : Option (StateDB Address Hash) :=
  let s' := s.appendJournal (.refundChange s.refund)
  if gas > s.refund then none else some { s' with refund := s.refund - gas }

/-- `AddLog(log)`: the log gets the transaction's hashes and index and the next log
index. -/
def AddLog (log : Log Address Hash) : StateDB Address Hash :=
  let s := s.appendJournal (.addLogChange s.thash)
  let log := { log with
    txHash := s.thash
    blockHash := s.bhash
    txIndex := s.txIndex
    index := s.logSize }
  { s with
    logs := Function.update s.logs s.thash (s.logs s.thash ++ [log])
    logSize := s.logSize + 1 }

/-- `AddPreimage(hash, preimage)`: recorded once. -/
def AddPreimage (hash : Hash) (preimage : List UInt8) : StateDB Address Hash :=
  if s.preimages hash = none then
    { s.appendJournal (.addPreimageChange hash) with
      preimages := Function.update s.preimages hash (some preimage) }
  else s

/-- `Snapshot()`: the id of a new revision at the current journal length. -/
def Snapshot : Nat × StateDB Address Hash :=
  (s.nextRevisionId,
    { s with
      nextRevisionId := s.nextRevisionId + 1
      validRevisions := s.validRevisions ++ [⟨s.nextRevisionId, s.journal.entries.length⟩] })

end StateDB

/-! ## Undoing the journal -/

/-- `revert(s)` of an entry. -/
def JournalEntry.revert (env : Env Address Hash) :
    JournalEntry Address Hash → StateDB Address Hash → Option (StateDB Address Hash)
  | .createObjectChange a, s => some { s with stateObjects := Function.update s.stateObjects a none }
  | .resetObjectChange prev, s => some (s.setStateObject prev)
  | .suicideChange a prev prevbalance, s =>
    match s.getStateObject env a with
    | some o => some (s.setStateObject ({ o with suicided := prev }.setBalance prevbalance))
    | none => some s
  | .balanceChange a prev, s => (s.getStateObject env a).map fun o => s.setStateObject (o.setBalance prev)
  | .nonceChange a prev, s => (s.getStateObject env a).map fun o => s.setStateObject (o.setNonce prev)
  | .codeChange a prevcode prevhash, s =>
    (s.getStateObject env a).map fun o => s.setStateObject (o.setCode prevhash prevcode)
  | .storageChange a key prevalue, s =>
    (s.getStateObject env a).map fun o => s.setStateObject (o.setState key prevalue)
  | .refundChange prev, s => some { s with refund := prev }
  | .addLogChange txhash, s =>
    let logs := s.logs txhash
    -- Go slices `logs[:len(logs)-1]`, which panics on no logs
    if logs = [] then none
    else some { s with
      logs := Function.update s.logs txhash logs.dropLast
      logSize := s.logSize - 1 }
  | .addPreimageChange hash, s => some { s with preimages := Function.update s.preimages hash none }
  | .touchChange _, s => some s

/-- One turn of the loop of `j.revert`: the entry's revert, then its change uncounted. -/
def revertStep (env : Env Address Hash) (e : JournalEntry Address Hash) (s : StateDB Address Hash) :
    Option (StateDB Address Hash) :=
  (e.revert env s).map fun s =>
    match e.dirtied with
    | some a => { s with journal := { s.journal with
        dirties := Function.update s.journal.dirties a (s.journal.dirties a - 1) } }
    | none => s

/-- The loop of `j.revert` over entries, the last first. -/
def revertEntries (env : Env Address Hash) :
    List (JournalEntry Address Hash) → StateDB Address Hash → Option (StateDB Address Hash)
  | [], s => some s
  | e :: es, s => (revertEntries env es s).bind (revertStep env e)

namespace StateDB

variable (env : Env Address Hash) (s : StateDB Address Hash)

/-- `s.journal.revert(s, snapshot)`: the entries from `snapshot` on undone and dropped. -/
def revertJournal (snapshot : Nat) : Option (StateDB Address Hash) :=
  (revertEntries env (s.journal.entries.drop snapshot) s).map fun t =>
    { t with journal := { t.journal with entries := t.journal.entries.take snapshot } }

/-- `RevertToSnapshot(revid)`: `sort.Search` finds the first revision with an id of at least
`revid`, which must be `revid`; the journal is undone to it and it and the later revisions
dropped. -/
def RevertToSnapshot (revid : Nat) : Option (StateDB Address Hash) :=
  let idx := s.validRevisions.findIdx fun r => decide (revid ≤ r.id)
  match s.validRevisions[idx]? with
  | none => none
  | some r =>
    if r.id ≠ revid then none
    else (s.revertJournal env r.journalIndex).map fun t =>
      { t with validRevisions := s.validRevisions.take idx }

end StateDB

/-! ## Runs of operations -/

/-- The operations a transaction makes on the state: the setters, and a call frame, which
takes a snapshot, runs its operations and reverts to the snapshot if it fails. -/
inductive Op (Address Hash : Type) where
  | setBalance (a : Address) (amount : Int)
  | addBalance (a : Address) (amount : Int)
  | subBalance (a : Address) (amount : Int)
  | setNonce (a : Address) (nonce : Nat)
  | setCode (a : Address) (code : List UInt8)
  | setState (a : Address) (key value : Hash)
  | createAccount (a : Address)
  | suicide (a : Address)
  | addRefund (gas : UInt64)
  | subRefund (gas : UInt64)
  | addLog (log : Log Address Hash)
  | addPreimage (hash : Hash) (preimage : List UInt8)
  | frame (ops : List (Op Address Hash)) (fails : Bool)

mutual

/-- One operation; `none` is a panic. -/
def runOp (env : Env Address Hash) : Op Address Hash → StateDB Address Hash → Option (StateDB Address Hash)
  | .setBalance a amount, s => some (s.SetBalance env a amount)
  | .addBalance a amount, s => some (s.AddBalance env a amount)
  | .subBalance a amount, s => some (s.SubBalance env a amount)
  | .setNonce a nonce, s => some (s.SetNonce env a nonce)
  | .setCode a code, s => some (s.SetCode env a code)
  | .setState a key value, s => some (s.SetState env a key value)
  | .createAccount a, s => some (s.CreateAccount env a)
  | .suicide a, s => some (s.Suicide env a).1
  | .addRefund gas, s => some (s.AddRefund gas)
  | .subRefund gas, s => s.SubRefund gas
  | .addLog log, s => some (s.AddLog log)
  | .addPreimage hash preimage, s => some (s.AddPreimage hash preimage)
  | .frame ops fails, s =>
    let (id, s₁) := s.Snapshot
    (runOps env ops s₁).bind fun s₂ => if fails then s₂.RevertToSnapshot env id else some s₂

/-- Operations one after another. -/
def runOps (env : Env Address Hash) : List (Op Address Hash) → StateDB Address Hash →
    Option (StateDB Address Hash)
  | [], s => some s
  | op :: ops, s => (runOp env op s).bind (runOps env ops)

end

end GoMetadium.State
