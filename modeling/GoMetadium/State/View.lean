import GoMetadium.State.StateDB

set_option autoImplicit false

/-! # What the accessors observe, and what a journal entry undoes there

Two states that the accessors cannot tell apart may differ inside: `SetState` followed by its
revert leaves the key in `dirtyStorage` with the committed value, and a reverted `SetCode`
leaves the code loaded and `dirtyCode` set. So the revert of the journal is exact on what
is observed, not on the objects. This file names that observed state (`StateDB.view`): for
each address the object `getDeletedStateObject` finds, seen through the reads of its code,
code size and storage, together with the refund, the logs and the preimages.

On the view each journal entry has an undo of its own (`JournalEntry.undo`), stated without
the objects. The revert of an entry on a state commutes with the view (`revert_view`): the
view after the revert is the undo of the view before. Undoing a list of entries on two states
of one view therefore gives one view, however the states differ inside (`revertEntries_view`);
this is what lets the later reverts of a journal run on objects that earlier operations have
replaced.
-/

namespace GoMetadium.State

variable {Address Hash : Type}

/-! ## The fields the methods change -/

section Fields

variable [DecidableEq Address]

namespace StateDB

variable (s : StateDB Address Hash)

@[simp] theorem setStateObject_stateObjects (o : StateObject Address Hash) :
    (s.setStateObject o).stateObjects = Function.update s.stateObjects o.address (some o) := rfl

@[simp] theorem setStateObject_journal (o : StateObject Address Hash) :
    (s.setStateObject o).journal = s.journal := rfl

@[simp] theorem setStateObject_db (o : StateObject Address Hash) :
    (s.setStateObject o).db = s.db := rfl

@[simp] theorem setStateObject_validRevisions (o : StateObject Address Hash) :
    (s.setStateObject o).validRevisions = s.validRevisions := rfl

@[simp] theorem setStateObject_nextRevisionId (o : StateObject Address Hash) :
    (s.setStateObject o).nextRevisionId = s.nextRevisionId := rfl

@[simp] theorem appendJournal_journal (e : JournalEntry Address Hash) :
    (s.appendJournal e).journal = s.journal.append e := rfl

@[simp] theorem appendJournal_stateObjects (e : JournalEntry Address Hash) :
    (s.appendJournal e).stateObjects = s.stateObjects := rfl

@[simp] theorem appendJournal_db (e : JournalEntry Address Hash) :
    (s.appendJournal e).db = s.db := rfl

@[simp] theorem appendJournal_validRevisions (e : JournalEntry Address Hash) :
    (s.appendJournal e).validRevisions = s.validRevisions := rfl

@[simp] theorem appendJournal_nextRevisionId (e : JournalEntry Address Hash) :
    (s.appendJournal e).nextRevisionId = s.nextRevisionId := rfl

end StateDB

@[simp] theorem Journal.append_entries (j : Journal Address Hash) (e : JournalEntry Address Hash) :
    (j.append e).entries = j.entries ++ [e] := rfl

theorem Journal.append_dirties (j : Journal Address Hash) (e : JournalEntry Address Hash) (a : Address) :
    (j.append e).dirties a = j.dirties a + if e.dirtied = some a then 1 else 0 := by
  simp only [Journal.append]
  cases e.dirtied with
  | none => simp
  | some b =>
    by_cases hab : a = b
    · subst hab
      simp
    · simp [hab, Ne.symm hab]

end Fields

/-! ## The view of an object -/

section ObjectView

variable [DecidableEq Hash]

/-- What `Code` reads of an object with this code hash and code field. -/
def codeOf (env : Env Address Hash) (db : Database Address Hash) (codeHash : Hash)
    (code : Option (List UInt8)) : Option (List UInt8) :=
  match code with
  | some c => some c
  | none => if codeHash = env.emptyCodeHash then none else some (db.code codeHash)

/-- What `GetCodeSize` reads of an object with this code hash and code field. -/
def codeSizeOf (db : Database Address Hash) (codeHash : Hash) (code : Option (List UInt8)) : Nat :=
  match code with
  | some c => c.length
  | none => (db.code codeHash).length

/-- The observed state of one object. -/
structure ObjView (Address Hash : Type) where
  address : Address
  data : Account Hash
  code : Option (List UInt8)
  codeSize : Nat
  state : Hash → Hash
  committedState : Hash → Hash
  suicided : Bool
  deleted : Bool

/-- An object as its reads see it. -/
def StateObject.view (env : Env Address Hash) (db : Database Address Hash)
    (o : StateObject Address Hash) : ObjView Address Hash :=
  ⟨o.address, o.data, codeOf env db o.data.codeHash o.code, codeSizeOf db o.data.codeHash o.code,
    o.GetState db, o.GetCommittedState db, o.suicided, o.deleted⟩

theorem StateObject.Code_eq (env : Env Address Hash) (db : Database Address Hash)
    (o : StateObject Address Hash) : o.Code env db = codeOf env db o.data.codeHash o.code := rfl

variable (env : Env Address Hash) (db : Database Address Hash) (o : StateObject Address Hash)

@[simp] theorem view_address : (o.view env db).address = o.address := rfl

@[simp] theorem view_deleted : (o.view env db).deleted = o.deleted := rfl

theorem view_setBalance (x : Int) :
    (o.setBalance x).view env db = { o.view env db with data := { o.data with balance := x } } := rfl

theorem view_setNonce (n : Nat) :
    (o.setNonce n).view env db = { o.view env db with data := { o.data with nonce := n } } := rfl

theorem view_setCode (h : Hash) (c : Option (List UInt8)) :
    (o.setCode h c).view env db =
      { o.view env db with
        data := { o.data with codeHash := h }
        code := codeOf env db h c
        codeSize := codeSizeOf db h c } := rfl

theorem GetState_setState (key value : Hash) :
    (o.setState key value).GetState db = Function.update (o.GetState db) key value := by
  funext k
  by_cases hk : k = key
  · subst hk
    simp [StateObject.GetState, StateObject.setState]
  · simp [StateObject.GetState, StateObject.setState, hk]
    rfl

theorem view_setState (key value : Hash) :
    (o.setState key value).view env db =
      { o.view env db with state := Function.update (o.GetState db) key value } := by
  rw [StateObject.view, GetState_setState]
  rfl

/-- Reading the code back through `codeOf` changes nothing: a loaded code stays, and no code
stays no code exactly when the hash is the empty one. -/
@[simp] theorem codeOf_codeOf (h : Hash) (c : Option (List UInt8)) :
    codeOf env db h (codeOf env db h c) = codeOf env db h c := by
  cases c with
  | some c => rfl
  | none => by_cases he : h = env.emptyCodeHash <;> simp [codeOf, he]

@[simp] theorem codeSizeOf_codeOf (h : Hash) (c : Option (List UInt8)) :
    codeSizeOf db h (codeOf env db h c) = codeSizeOf db h c := by
  cases c with
  | some c => rfl
  | none => by_cases he : h = env.emptyCodeHash <;> simp [codeOf, codeSizeOf, he]

end ObjectView

/-! ## The view of a state -/

section Views

variable [DecidableEq Address]

/-- The observed state: the view of what `getDeletedStateObject` finds at each address, and
the refund, logs and preimages. The database is not part of it; no method changes it. -/
structure View (Address Hash : Type) where
  objects : Address → Option (ObjView Address Hash)
  refund : UInt64
  logs : Hash → List (Log Address Hash)
  logSize : UInt64
  preimages : Hash → Option (List UInt8)

namespace View

variable (v : View Address Hash)

/-- The object `getStateObject` finds, in the view. -/
def live (a : Address) : Option (ObjView Address Hash) :=
  match v.objects a with
  | some ov => if ov.deleted then none else some ov
  | none => none

/-- An object stored at its address. -/
def store (ov : ObjView Address Hash) : View Address Hash :=
  { v with objects := Function.update v.objects ov.address (some ov) }

/-- The live object at `a` changed by `f`; nothing where there is none. -/
def modify (a : Address) (f : ObjView Address Hash → ObjView Address Hash) :
    Option (View Address Hash) :=
  (v.live a).map fun ov => v.store (f ov)

theorem store_store (ov ov' : ObjView Address Hash) (h : ov'.address = ov.address) :
    (v.store ov).store ov' = v.store ov' := by
  simp only [store, h, Function.update_idem]

theorem store_eq_self {ov : ObjView Address Hash} (h : v.objects ov.address = some ov) :
    v.store ov = v := by
  simp only [store, ← h, Function.update_eq_self]

theorem live_store_self (ov : ObjView Address Hash) (hd : ov.deleted = false) :
    (v.store ov).live ov.address = some ov := by
  simp [live, store, hd]

/-- Changing an object just stored is storing the changed one. -/
theorem modify_store (ov : ObjView Address Hash) (hd : ov.deleted = false)
    (f : ObjView Address Hash → ObjView Address Hash) (hf : (f ov).address = ov.address) :
    (v.store ov).modify ov.address f = some (v.store (f ov)) := by
  rw [modify, live_store_self v ov hd, Option.map_some, store_store v ov (f ov) hf]

theorem modify_getD {a : Address} {f : ObjView Address Hash → ObjView Address Hash}
    {w : View Address Hash} (d : View Address Hash) (h : v.modify a f = some w) :
    (v.modify a f).getD d = w := by
  rw [h]
  rfl

end View

/-! ## The loop of the revert, outside the view -/

/-- The number of entries that change `a`: what `dirties` counts. -/
def dirtyCount (a : Address) (es : List (JournalEntry Address Hash)) : Int :=
  es.countP fun e => e.dirtied = some a

@[simp] theorem dirtyCount_nil (a : Address) : dirtyCount a ([] : List (JournalEntry Address Hash)) = 0 :=
  rfl

theorem dirtyCount_cons (a : Address) (e : JournalEntry Address Hash) (es : List (JournalEntry Address Hash)) :
    dirtyCount a (e :: es) = dirtyCount a es + if e.dirtied = some a then 1 else 0 := by
  by_cases h : e.dirtied = some a <;> simp [dirtyCount, h]

theorem dirtyCount_append (a : Address) (es₁ es₂ : List (JournalEntry Address Hash)) :
    dirtyCount a (es₁ ++ es₂) = dirtyCount a es₁ + dirtyCount a es₂ := by
  simp [dirtyCount, List.countP_append]

/-- Every key of the live set holds an object of its own address. -/
def Keyed (s : StateDB Address Hash) : Prop :=
  ∀ a o, s.stateObjects a = some o → o.address = a

theorem keyed_setStateObject {s : StateDB Address Hash} (h : Keyed s) (o : StateObject Address Hash) :
    Keyed (s.setStateObject o) := by
  intro a o' ho'
  by_cases ha : a = o.address
  · subst ha
    simp at ho'
    rw [← ho']
  · simp [ha] at ho'
    exact h a o' ho'

/-- What the loop of the revert leaves alone after undoing `es`: the database, the journal's
entries, the revisions and the keys of the live set; each undone entry is uncounted. -/
structure RevertFrame (es : List (JournalEntry Address Hash)) (s t : StateDB Address Hash) : Prop where
  db : t.db = s.db
  entries : t.journal.entries = s.journal.entries
  validRevisions : t.validRevisions = s.validRevisions
  nextRevisionId : t.nextRevisionId = s.nextRevisionId
  dirties : ∀ a, t.journal.dirties a = s.journal.dirties a - dirtyCount a es
  keyed : Keyed s → Keyed t

theorem RevertFrame.cons {e : JournalEntry Address Hash} {es : List (JournalEntry Address Hash)}
    {s t₁ t : StateDB Address Hash} (h₁ : RevertFrame es s t₁) (h : RevertFrame [e] t₁ t) :
    RevertFrame (e :: es) s t where
  db := h.db.trans h₁.db
  entries := h.entries.trans h₁.entries
  validRevisions := h.validRevisions.trans h₁.validRevisions
  nextRevisionId := h.nextRevisionId.trans h₁.nextRevisionId
  dirties a := by
    rw [h.dirties, h₁.dirties, dirtyCount_cons, dirtyCount_cons, dirtyCount_nil]
    ring
  keyed := h.keyed ∘ h₁.keyed

end Views

variable [DecidableEq Address] [DecidableEq Hash] [Zero Hash]

/-- The view of a state. -/
def StateDB.view (env : Env Address Hash) (s : StateDB Address Hash) : View Address Hash :=
  ⟨fun a => (s.getDeletedStateObject env a).map (StateObject.view env s.db), s.refund, s.logs,
    s.logSize, s.preimages⟩

/-! ## The undo of an entry on the view -/

/-- What the revert of an entry does to the observed state, in the view's own terms. -/
def JournalEntry.undo (env : Env Address Hash) (db : Database Address Hash) :
    JournalEntry Address Hash → View Address Hash → Option (View Address Hash)
  | .createObjectChange a, v =>
    some { v with
      objects := Function.update v.objects a
        ((db.account a).map fun d => (newObject env a d).view env db) }
  | .resetObjectChange prev, v => some (v.store (prev.view env db))
  | .suicideChange a prev prevbalance, v =>
    some ((v.modify a fun ov =>
      { ov with suicided := prev, data := { ov.data with balance := prevbalance } }).getD v)
  | .balanceChange a prev, v => v.modify a fun ov => { ov with data := { ov.data with balance := prev } }
  | .nonceChange a prev, v => v.modify a fun ov => { ov with data := { ov.data with nonce := prev } }
  | .codeChange a prevcode prevhash, v =>
    v.modify a fun ov =>
      { ov with
        data := { ov.data with codeHash := prevhash }
        code := codeOf env db prevhash prevcode
        codeSize := codeSizeOf db prevhash prevcode }
  | .storageChange a key prevalue, v =>
    v.modify a fun ov => { ov with state := Function.update ov.state key prevalue }
  | .refundChange prev, v => some { v with refund := prev }
  | .addLogChange txhash, v =>
    if v.logs txhash = [] then none
    else some { v with
      logs := Function.update v.logs txhash (v.logs txhash).dropLast
      logSize := v.logSize - 1 }
  | .addPreimageChange hash, v => some { v with preimages := Function.update v.preimages hash none }
  | .touchChange _, v => some v

/-- A log added is the last of its transaction's logs, and the undo drops it. -/
theorem View.undo_addLogChange (env : Env Address Hash) (db : Database Address Hash)
    (v : View Address Hash) (h : Hash) (x : Log Address Hash) :
    (JournalEntry.addLogChange h).undo env db
      { v with logs := Function.update v.logs h (v.logs h ++ [x]), logSize := v.logSize + 1 } =
        some v := by
  simp [JournalEntry.undo, Function.update_idem]

/-- A preimage added where there was none, and the undo takes it away. -/
theorem View.undo_addPreimageChange (env : Env Address Hash) (db : Database Address Hash)
    (v : View Address Hash) (h : Hash) (p : List UInt8) (hnone : v.preimages h = none) :
    (JournalEntry.addPreimageChange h).undo env db
      { v with preimages := Function.update v.preimages h (some p) } = some v := by
  simp only [JournalEntry.undo, Function.update_idem]
  rw [← hnone, Function.update_eq_self]

/-- Undo a list of entries, the last first, as `revertEntries` does. -/
def undoAll (env : Env Address Hash) (db : Database Address Hash) :
    List (JournalEntry Address Hash) → View Address Hash → Option (View Address Hash)
  | [], v => some v
  | e :: es, v => (undoAll env db es v).bind (e.undo env db)

theorem undoAll_append (env : Env Address Hash) (db : Database Address Hash)
    (es₁ es₂ : List (JournalEntry Address Hash)) (v : View Address Hash) :
    undoAll env db (es₁ ++ es₂) v = (undoAll env db es₂ v).bind (undoAll env db es₁) := by
  induction es₁ with
  | nil =>
    rw [List.nil_append]
    cases undoAll env db es₂ v <;> rfl
  | cons e es ih => simp only [List.cons_append, undoAll, ih, Option.bind_assoc]

theorem undoAll_singleton (env : Env Address Hash) (db : Database Address Hash)
    (e : JournalEntry Address Hash) (v : View Address Hash) :
    undoAll env db [e] v = e.undo env db v := rfl

/-! ## The revert commutes with the view -/

namespace StateDB

variable (env : Env Address Hash) (s : StateDB Address Hash)

omit [DecidableEq Address] in
theorem view_objects (a : Address) :
    (s.view env).objects a = (s.getDeletedStateObject env a).map (StateObject.view env s.db) := rfl

theorem getDeletedStateObject_setStateObject (o : StateObject Address Hash) (a : Address) :
    (s.setStateObject o).getDeletedStateObject env a =
      if a = o.address then some o else s.getDeletedStateObject env a := by
  by_cases ha : a = o.address
  · subst ha
    simp [getDeletedStateObject]
  · simp [getDeletedStateObject, ha]

/-- Storing an object stores its view. -/
theorem view_setStateObject (o : StateObject Address Hash) :
    (s.setStateObject o).view env = (s.view env).store (o.view env s.db) := by
  simp only [view, View.store, setStateObject_db, view_address]
  congr 1
  funext a
  by_cases ha : a = o.address
  · subst ha
    simp [getDeletedStateObject_setStateObject]
  · simp [getDeletedStateObject_setStateObject, ha]

@[simp] theorem view_appendJournal (e : JournalEntry Address Hash) :
    (s.appendJournal e).view env = s.view env := rfl

omit [DecidableEq Address] in
/-- The live object of the view is the view of `getStateObject`. -/
theorem live_view (a : Address) :
    (s.view env).live a = (s.getStateObject env a).map (StateObject.view env s.db) := by
  simp only [View.live, view_objects, getStateObject]
  cases s.getDeletedStateObject env a with
  | none => rfl
  | some o => by_cases hd : o.deleted <;> simp [hd]

/-- Changing a live object of the state changes its view. -/
theorem view_modify (a : Address) (f : StateObject Address Hash → StateObject Address Hash)
    (g : ObjView Address Hash → ObjView Address Hash)
    (hfg : ∀ o, (f o).view env s.db = g (o.view env s.db)) :
    ((s.getStateObject env a).map fun o => s.setStateObject (f o)).map (view env) =
      (s.view env).modify a g := by
  rw [View.modify, live_view]
  cases s.getStateObject env a with
  | none => rfl
  | some o => simp [view_setStateObject, hfg]

end StateDB

open StateDB in
/-- **The revert of an entry commutes with the view.** -/
theorem revert_view (env : Env Address Hash) (e : JournalEntry Address Hash)
    (s : StateDB Address Hash) :
    (e.revert env s).map (view env) = e.undo env s.db (s.view env) := by
  cases e with
  | createObjectChange a =>
    simp only [JournalEntry.revert, JournalEntry.undo, Option.map_some, Option.some.injEq]
    simp only [view, View.mk.injEq, and_true]
    funext b
    by_cases hb : b = a
    · subst hb
      simp [getDeletedStateObject]
      rfl
    · simp [getDeletedStateObject, hb]
  | resetObjectChange prev =>
    simp [JournalEntry.revert, JournalEntry.undo, view_setStateObject]
  | suicideChange a prev prevbalance =>
    simp only [JournalEntry.revert, JournalEntry.undo, View.modify, live_view]
    cases s.getStateObject env a with
    | none => rfl
    | some o => simp [view_setStateObject, view_setBalance]; rfl
  | balanceChange a prev =>
    exact view_modify env s a _ _ fun o => view_setBalance env s.db o prev
  | nonceChange a prev =>
    exact view_modify env s a _ _ fun o => view_setNonce env s.db o prev
  | codeChange a prevcode prevhash =>
    exact view_modify env s a _ _ fun o => view_setCode env s.db o prevhash prevcode
  | storageChange a key prevalue =>
    exact view_modify env s a _ _ fun o => view_setState env s.db o key prevalue
  | refundChange prev => rfl
  | addLogChange txhash =>
    by_cases h : s.logs txhash = []
    · simp [JournalEntry.revert, JournalEntry.undo, view, h]
    · simp [JournalEntry.revert, JournalEntry.undo, view, h]
      rfl
  | addPreimageChange hash => rfl
  | touchChange a => rfl

/-- What the revert of an entry leaves alone: the database, the journal, the revisions, and
every object of the live set at its own address. -/
theorem revert_frame (env : Env Address Hash) (e : JournalEntry Address Hash)
    {s t : StateDB Address Hash} (h : e.revert env s = some t) :
    t.db = s.db ∧ t.journal = s.journal ∧ t.validRevisions = s.validRevisions ∧
      t.nextRevisionId = s.nextRevisionId ∧ (Keyed s → Keyed t) := by
  -- the cases that store an object; `store` stands for the `setStateObject` they end with
  have store : ∀ o, t = s.setStateObject o → t.db = s.db ∧ t.journal = s.journal ∧
      t.validRevisions = s.validRevisions ∧ t.nextRevisionId = s.nextRevisionId ∧
      (Keyed s → Keyed t) := by
    rintro o rfl
    exact ⟨rfl, rfl, rfl, rfl, fun hk => keyed_setStateObject hk o⟩
  cases e with
  | createObjectChange a =>
    simp only [JournalEntry.revert, Option.some.injEq] at h
    subst h
    refine ⟨rfl, rfl, rfl, rfl, fun hk b o ho => ?_⟩
    by_cases hb : b = a
    · subst hb
      simp at ho
    · simp only [Function.update_of_ne hb] at ho
      exact hk b o ho
  | resetObjectChange prev =>
    exact store prev (Option.some.inj h).symm
  | suicideChange a prev prevbalance =>
    simp only [JournalEntry.revert] at h
    split at h
    · exact store _ (Option.some.inj h).symm
    · cases h
      exact ⟨rfl, rfl, rfl, rfl, id⟩
  | balanceChange a prev | nonceChange a prev | codeChange a prev _ | storageChange a _ prev =>
    simp only [JournalEntry.revert, Option.map_eq_some_iff] at h
    obtain ⟨o, -, rfl⟩ := h
    exact store _ rfl
  | refundChange prev | addPreimageChange prev | touchChange prev =>
    simp only [JournalEntry.revert, Option.some.injEq] at h
    subst h
    exact ⟨rfl, rfl, rfl, rfl, id⟩
  | addLogChange txhash =>
    simp only [JournalEntry.revert] at h
    split at h
    · cases h
    · cases h
      exact ⟨rfl, rfl, rfl, rfl, id⟩

theorem revertStep_frame (env : Env Address Hash) (e : JournalEntry Address Hash)
    {s t : StateDB Address Hash} (h : revertStep env e s = some t) : RevertFrame [e] s t := by
  simp only [revertStep, Option.map_eq_some_iff] at h
  obtain ⟨t', ht', rfl⟩ := h
  obtain ⟨hdb, hj, hvr, hnext, hkeyed⟩ := revert_frame env e ht'
  cases hd : e.dirtied with
  | none =>
    dsimp only
    refine ⟨hdb, congrArg Journal.entries hj, hvr, hnext, fun a => ?_, hkeyed⟩
    simp [dirtyCount_cons, hd, hj]
  | some b =>
    dsimp only
    refine ⟨hdb, by simp [hj], hvr, hnext, fun a => ?_, hkeyed⟩
    by_cases hab : a = b
    · subst hab
      simp [dirtyCount_cons, hd, hj]
    · simp [dirtyCount_cons, hd, hj, hab, Ne.symm hab]

/-- The loop of the revert changes the journal only by uncounting the entries it undoes. -/
theorem revertEntries_frame (env : Env Address Hash) (es : List (JournalEntry Address Hash))
    {s t : StateDB Address Hash} (h : revertEntries env es s = some t) : RevertFrame es s t := by
  induction es generalizing t with
  | nil =>
    cases h
    exact ⟨rfl, rfl, rfl, rfl, fun a => by simp, id⟩
  | cons e es ih =>
    simp only [revertEntries, Option.bind_eq_some_iff] at h
    obtain ⟨t₁, h₁, h⟩ := h
    exact (ih h₁).cons (revertStep_frame env e h)

theorem revertStep_view (env : Env Address Hash) (e : JournalEntry Address Hash)
    (s : StateDB Address Hash) :
    (revertStep env e s).map (StateDB.view env) = e.undo env s.db (s.view env) := by
  rw [← revert_view, revertStep, Option.map_map]
  congr 1
  funext t
  cases e.dirtied <;> rfl

/-- **The revert loop commutes with the view**: states of one view revert to one view. -/
theorem revertEntries_view (env : Env Address Hash) (es : List (JournalEntry Address Hash))
    (s : StateDB Address Hash) :
    (revertEntries env es s).map (StateDB.view env) = undoAll env s.db es (s.view env) := by
  induction es generalizing s with
  | nil => rfl
  | cons e es ih =>
    rw [revertEntries, undoAll, ← ih]
    cases h : revertEntries env es s with
    | none => rfl
    | some t =>
      have hdb : t.db = s.db := (revertEntries_frame env es h).db
      simp [revertStep_view, hdb]

end GoMetadium.State
