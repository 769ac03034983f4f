import GoMetadium.State.View

set_option autoImplicit false

/-! # Reverting to a snapshot is exact

Every method of `StateDB` that changes the state records, in the journal, entries whose undo
takes the observed state back to what it was before the method (`Undoes`). Runs compose:
the entries of a run are those of its operations in order, and their undo, the last first,
goes back through the states in between. A call frame that fails reverts to its snapshot,
which undoes exactly the entries of its own run and leaves the journal as it was; one that
succeeds keeps its entries for the frames around it to undo. So, by induction over the
operations and the nesting of the frames (`runOps_undoes`), `RevertToSnapshot(id)` after any
run of operations from `id := Snapshot()` gives back every accessor's value at the snapshot,
and the journal's dirty counts are again the counts of its entries
(`revertToSnapshot_restores`).

What this needs of the state at the snapshot is `StateDB.Wf`: every live object sits at its
own address, every revision id is below the next one, and `dirties` counts the entries of
each address but RIPEMD's. `New` has it and every operation keeps it, so every state a
transaction reaches has it.
-/

namespace GoMetadium.State

variable {Address Hash : Type} [DecidableEq Address]

/-! ## The invariant -/

/-- What every state of a transaction satisfies. -/
structure StateDB.Wf (env : Env Address Hash) (s : StateDB Address Hash) : Prop where
  keyed : Keyed s
  revisions : ∀ r ∈ s.validRevisions, r.id < s.nextRevisionId
  dirties : ∀ a, a ≠ env.ripemd → s.journal.dirties a = dirtyCount a s.journal.entries

namespace StateDB.Wf

variable {env : Env Address Hash} {s : StateDB Address Hash}

theorem appendJournal (h : s.Wf env) (e : JournalEntry Address Hash) : (s.appendJournal e).Wf env where
  keyed := h.keyed
  revisions := h.revisions
  dirties a ha := by
    rw [appendJournal_journal, Journal.append_dirties, h.dirties a ha, Journal.append_entries,
      dirtyCount_append, dirtyCount_cons, dirtyCount_nil, zero_add]

theorem setStateObject (h : s.Wf env) (o : StateObject Address Hash) : (s.setStateObject o).Wf env :=
  ⟨keyed_setStateObject h.keyed o, h.revisions, h.dirties⟩

/-- The RIPEMD exception of `touch` keeps the invariant, which does not count that address. -/
theorem dirty_ripemd (h : s.Wf env) {r : Address} (hr : r = env.ripemd) :
    ({ s with journal := s.journal.dirty r } : StateDB Address Hash).Wf env where
  keyed := h.keyed
  revisions := h.revisions
  dirties a ha := by
    subst hr
    simp only [Journal.dirty, Function.update_of_ne ha]
    exact h.dirties a ha

end StateDB.Wf

variable [DecidableEq Hash] [Zero Hash]

omit [DecidableEq Hash] in
theorem New_wf (env : Env Address Hash) (db : Database Address Hash) : (New db).Wf env where
  keyed a o h := by simp [New] at h
  revisions r h := by simp [New] at h
  dirties a _ := rfl

/-! ## Runs the journal undoes -/

/-- A run from `s` to `s'` that the journal can take back: `s'` has the invariant, the
database is the same, the revisions of `s` and its next id are kept, and the journal has only
grown, by entries whose undo gives back the view of `s`. -/
structure Undoes (env : Env Address Hash) (s s' : StateDB Address Hash) : Prop where
  wf : s'.Wf env
  db : s'.db = s.db
  revisions : s.validRevisions <+: s'.validRevisions
  nextRevisionId : s.nextRevisionId ≤ s'.nextRevisionId
  undo : ∃ E, s'.journal.entries = s.journal.entries ++ E ∧
    undoAll env s.db E (s'.view env) = some (s.view env)

namespace Undoes

variable {env : Env Address Hash} {s s₁ s₂ : StateDB Address Hash}

theorem refl (h : s.Wf env) : Undoes env s s :=
  ⟨h, rfl, List.prefix_refl _, le_rfl, [], by simp, rfl⟩

theorem trans (h₁ : Undoes env s s₁) (h₂ : Undoes env s₁ s₂) : Undoes env s s₂ where
  wf := h₂.wf
  db := h₂.db.trans h₁.db
  revisions := h₁.revisions.trans h₂.revisions
  nextRevisionId := h₁.nextRevisionId.trans h₂.nextRevisionId
  undo := by
    obtain ⟨E₁, he₁, hu₁⟩ := h₁.undo
    obtain ⟨E₂, he₂, hu₂⟩ := h₂.undo
    refine ⟨E₁ ++ E₂, by rw [he₂, he₁, List.append_assoc], ?_⟩
    -- the entries of the second run are undone first, back to the view after the first
    rw [undoAll_append, ← h₁.db, hu₂, Option.bind_some, h₁.db, hu₁]

end Undoes

section Shapes

variable {env : Env Address Hash} {s : StateDB Address Hash}

/-- One entry recorded, and nothing observed changed. -/
theorem undoes_appendJournal (hwf : s.Wf env) (e : JournalEntry Address Hash)
    (hundo : e.undo env s.db (s.view env) = some (s.view env)) : Undoes env s (s.appendJournal e) :=
  ⟨hwf.appendJournal e, rfl, List.prefix_refl _, le_rfl, [e], rfl, hundo⟩

/-- The shape of a journalled change of one object: one entry recorded, then an object
stored, where the entry's undo takes the stored view back. -/
theorem undoes_appendJournal_store (hwf : s.Wf env) (e : JournalEntry Address Hash)
    (o' : StateObject Address Hash)
    (hundo : e.undo env s.db ((s.view env).store (o'.view env s.db)) = some (s.view env)) :
    Undoes env s ((s.appendJournal e).setStateObject o') := by
  refine ⟨(hwf.appendJournal e).setStateObject o', rfl, List.prefix_refl _, le_rfl, [e], rfl, ?_⟩
  rw [undoAll_singleton, StateDB.view_setStateObject, StateDB.view_appendJournal]
  exact hundo

/-- The shape of a change of the fields outside the objects: one entry recorded and the
fields set, where the entry's undo takes them back. -/
theorem undoes_appendJournal_update (hwf : s.Wf env) (e : JournalEntry Address Hash)
    (s' : StateDB Address Hash) (hs' : s'.stateObjects = s.stateObjects ∧ s'.db = s.db ∧
      s'.journal = s.journal.append e ∧ s'.validRevisions = s.validRevisions ∧
      s'.nextRevisionId = s.nextRevisionId)
    (hundo : e.undo env s.db (s'.view env) = some (s.view env)) : Undoes env s s' := by
  obtain ⟨hobj, hdb, hj, hvr, hnext⟩ := hs'
  have hwf' : (s.appendJournal e).Wf env := hwf.appendJournal e
  refine ⟨⟨?_, ?_, ?_⟩, hdb, by rw [hvr], hnext.ge, [e], by rw [hj]; rfl, hundo⟩
  · intro a o h
    exact hwf'.keyed a o (hobj ▸ h)
  · rw [hvr, hnext]
    exact hwf.revisions
  · rw [hj]
    exact hwf'.dirties

end Shapes

/-! ## Changing one live object -/

section Objects

variable {env : Env Address Hash} {s : StateDB Address Hash}

omit [DecidableEq Address] in
theorem getDeletedStateObject_address (hk : Keyed s) {a : Address} {o : StateObject Address Hash}
    (h : s.getDeletedStateObject env a = some o) : o.address = a := by
  simp only [StateDB.getDeletedStateObject] at h
  split at h
  · exact hk a o (by simp_all)
  · obtain ⟨d, -, rfl⟩ := Option.map_eq_some_iff.mp h
    rfl

omit [DecidableEq Address] in
theorem getStateObject_address (hk : Keyed s) {a : Address} {o : StateObject Address Hash}
    (h : s.getStateObject env a = some o) : o.address = a := by
  simp only [StateDB.getStateObject] at h
  split at h
  · split at h
    · cases h
    · cases h
      exact getDeletedStateObject_address hk ‹_›
  · cases h

omit [DecidableEq Address] in
/-- A live object is in the view at its address, not deleted. -/
theorem live_objects {o : StateObject Address Hash} (h : s.getStateObject env o.address = some o) :
    (s.view env).objects o.address = some (o.view env s.db) ∧ o.deleted = false := by
  simp only [StateDB.getStateObject] at h
  split at h
  · split at h
    · cases h
    · cases h
      rename_i o' hget hd
      exact ⟨by rw [StateDB.view_objects, hget]; rfl, by simpa using hd⟩
  · cases h

/-- The undo of an entry that changes the live object back: the object changed, stored, and
changed back is the object. -/
theorem undo_modify_store {o : StateObject Address Hash}
    (hlive : s.getStateObject env o.address = some o) (o' : StateObject Address Hash) (ha : o'.address = o.address)
    (hd : o'.deleted = false) (f : ObjView Address Hash → ObjView Address Hash)
    (hf : ∀ ov, (f ov).address = ov.address) (hback : f (o'.view env s.db) = o.view env s.db) :
    ((s.view env).store (o'.view env s.db)).modify o.address f = some (s.view env) := by
  obtain ⟨hobj, -⟩ := live_objects hlive
  have hmod := View.modify_store (s.view env) (o'.view env s.db) hd f (hf _)
  rw [view_address, ha] at hmod
  rw [hmod, hback, View.store_eq_self _ (by rwa [view_address])]

namespace StateObject

variable (o : StateObject Address Hash)

theorem SetBalance_undoes (hwf : s.Wf env) (hlive : s.getStateObject env o.address = some o)
    (amount : Int) : Undoes env s (o.SetBalance amount s) := by
  refine undoes_appendJournal_store hwf _ _ ?_
  simp only [JournalEntry.undo]
  exact undo_modify_store hlive _ (by rfl) (by exact (live_objects hlive).2) _ (fun _ => by rfl) (by rfl)

theorem SetNonce_undoes (hwf : s.Wf env) (hlive : s.getStateObject env o.address = some o)
    (nonce : Nat) : Undoes env s (o.SetNonce nonce s) := by
  refine undoes_appendJournal_store hwf _ _ ?_
  simp only [JournalEntry.undo]
  exact undo_modify_store hlive _ (by rfl) (by exact (live_objects hlive).2) _ (fun _ => by rfl) (by rfl)

theorem SetCode_undoes (hwf : s.Wf env) (hlive : s.getStateObject env o.address = some o)
    (codeHash : Hash) (code : List UInt8) : Undoes env s (o.SetCode env codeHash code s) := by
  refine undoes_appendJournal_store hwf _ _ ?_
  simp only [JournalEntry.undo]
  refine undo_modify_store hlive _ (by rfl) (by exact (live_objects hlive).2) _ (fun _ => by rfl) ?_
  -- the entry keeps the code as `Code` reads it, which reads back the same
  rw [view_setCode, StateObject.Code_eq, codeOf_codeOf, codeSizeOf_codeOf]
  rfl

theorem SetState_undoes (hwf : s.Wf env) (hlive : s.getStateObject env o.address = some o)
    (key value : Hash) : Undoes env s (o.SetState key value s) := by
  simp only [StateObject.SetState]
  split
  · exact Undoes.refl hwf
  · refine undoes_appendJournal_store hwf _ _ ?_
    simp only [JournalEntry.undo]
    refine undo_modify_store hlive _ (by rfl) (by exact (live_objects hlive).2) _ (fun _ => by rfl) ?_
    rw [view_setState, Function.update_idem, Function.update_eq_self]
    rfl

theorem touch_undoes (hwf : s.Wf env) : Undoes env s (o.touch env s) := by
  have h := undoes_appendJournal hwf (.touchChange o.address) rfl
  simp only [StateObject.touch]
  split
  · rename_i hr
    exact ⟨h.wf.dirty_ripemd hr, h.db, h.revisions, h.nextRevisionId, h.undo⟩
  · exact h

theorem AddBalance_undoes (hwf : s.Wf env) (hlive : s.getStateObject env o.address = some o)
    (amount : Int) : Undoes env s (o.AddBalance env amount s) := by
  simp only [StateObject.AddBalance]
  split
  · split
    · exact o.touch_undoes hwf
    · exact Undoes.refl hwf
  · exact o.SetBalance_undoes hwf hlive _

theorem SubBalance_undoes (hwf : s.Wf env) (hlive : s.getStateObject env o.address = some o)
    (amount : Int) : Undoes env s (o.SubBalance amount s) := by
  simp only [StateObject.SubBalance]
  split
  · exact Undoes.refl hwf
  · exact o.SetBalance_undoes hwf hlive _

end StateObject

end Objects

/-! ## Creating an object -/

namespace StateDB

variable {env : Env Address Hash} {s : StateDB Address Hash}

omit [DecidableEq Hash] [Zero Hash] in
theorem setStateObject_setStateObject (o₁ o₂ : StateObject Address Hash)
    (h : o₂.address = o₁.address) :
    (s.setStateObject o₁).setStateObject o₂ = s.setStateObject o₂ := by
  simp only [setStateObject, h, Function.update_idem]

/-- `createObject` records one entry and stores the new object; the entry's undo takes back
whatever is stored at the address afterwards. -/
theorem createObject_spec (hwf : s.Wf env) (a : Address) :
    ∃ e, (s.createObject env a).1 = (s.appendJournal e).setStateObject (s.createObject env a).2.1 ∧
      ∀ ov : ObjView Address Hash, ov.address = a →
        e.undo env s.db ((s.view env).store ov) = some (s.view env) := by
  cases hprev : s.getDeletedStateObject env a with
  | none =>
    refine ⟨.createObjectChange a, by simp [createObject, hprev], fun ov ha => ?_⟩
    -- no object and no account: undoing the creation leaves the address empty again
    have hacc : s.db.account a = none := by
      simp only [getDeletedStateObject] at hprev
      split at hprev
      · cases hprev
      · simpa using hprev
    have hview : (s.view env).objects a = none := by rw [view_objects, hprev]; rfl
    simp only [JournalEntry.undo, hacc, Option.map_none, View.store, ha, Function.update_idem]
    rw [← hview, Function.update_eq_self]
  | some p =>
    refine ⟨.resetObjectChange p, by simp [createObject, hprev], fun ov ha => ?_⟩
    -- the replaced object, deleted or not, goes back where it was
    have hp : p.address = a := getDeletedStateObject_address hwf.keyed hprev
    simp only [JournalEntry.undo]
    rw [View.store_store _ _ _ (by rw [view_address, hp, ha]),
      View.store_eq_self _ (by rw [view_address, hp, view_objects, hprev]; rfl)]

theorem createObject_address (a : Address) : (s.createObject env a).2.1.address = a := rfl

theorem createObject_undoes (hwf : s.Wf env) (a : Address) :
    Undoes env s (s.createObject env a).1 ∧
      (s.createObject env a).1.getStateObject env a = some (s.createObject env a).2.1 := by
  obtain ⟨e, he, hundo⟩ := createObject_spec hwf a
  refine ⟨he ▸ undoes_appendJournal_store hwf e _ (hundo _ rfl), ?_⟩
  rw [he]
  simp [getStateObject, getDeletedStateObject, createObject, newObject, StateObject.setNonce]

/-- `GetOrNewStateObject` ends with a live object at the address. -/
theorem GetOrNewStateObject_undoes (hwf : s.Wf env) (a : Address) :
    Undoes env s (s.GetOrNewStateObject env a).1 ∧
      (s.GetOrNewStateObject env a).1.getStateObject env (s.GetOrNewStateObject env a).2.address =
        some (s.GetOrNewStateObject env a).2 := by
  simp only [GetOrNewStateObject]
  split
  · rename_i o ho
    refine ⟨Undoes.refl hwf, ?_⟩
    rw [getStateObject_address hwf.keyed ho, ho]
  · exact createObject_undoes hwf a

/-! ## Each operation is undone -/

/-- A method that starts with `GetOrNewStateObject` and changes the object it gets. -/
theorem undoes_of_getOrNew (hwf : s.Wf env) (a : Address)
    (m : StateObject Address Hash → StateDB Address Hash → StateDB Address Hash)
    (hm : ∀ t o, t.Wf env → t.getStateObject env o.address = some o → Undoes env t (m o t)) :
    Undoes env s (m (s.GetOrNewStateObject env a).2 (s.GetOrNewStateObject env a).1) := by
  obtain ⟨h₁, hlive⟩ := GetOrNewStateObject_undoes hwf a
  exact h₁.trans (hm _ _ h₁.wf hlive)

theorem SetBalance_undoes (hwf : s.Wf env) (a : Address) (amount : Int) :
    Undoes env s (s.SetBalance env a amount) :=
  undoes_of_getOrNew hwf a _ fun _ o hw hl => o.SetBalance_undoes hw hl amount

theorem AddBalance_undoes (hwf : s.Wf env) (a : Address) (amount : Int) :
    Undoes env s (s.AddBalance env a amount) :=
  undoes_of_getOrNew hwf a _ fun _ o hw hl => o.AddBalance_undoes hw hl amount

theorem SubBalance_undoes (hwf : s.Wf env) (a : Address) (amount : Int) :
    Undoes env s (s.SubBalance env a amount) :=
  undoes_of_getOrNew hwf a _ fun _ o hw hl => o.SubBalance_undoes hw hl amount

theorem SetNonce_undoes (hwf : s.Wf env) (a : Address) (nonce : Nat) :
    Undoes env s (s.SetNonce env a nonce) :=
  undoes_of_getOrNew hwf a _ fun _ o hw hl => o.SetNonce_undoes hw hl nonce

theorem SetCode_undoes (hwf : s.Wf env) (a : Address) (code : List UInt8) :
    Undoes env s (s.SetCode env a code) :=
  undoes_of_getOrNew hwf a _ fun _ o hw hl => o.SetCode_undoes hw hl _ code

theorem SetState_undoes (hwf : s.Wf env) (a : Address) (key value : Hash) :
    Undoes env s (s.SetState env a key value) :=
  undoes_of_getOrNew hwf a _ fun _ o hw hl => o.SetState_undoes hw hl key value

/-- `CreateAccount` over an existing account: the balance carried over is stored without an
entry, and the reset entry takes back the whole object. -/
theorem CreateAccount_undoes (hwf : s.Wf env) (a : Address) :
    Undoes env s (s.CreateAccount env a) := by
  obtain ⟨e, he, hundo⟩ := createObject_spec hwf a
  simp only [CreateAccount]
  split
  · rename_i p _
    rw [he, setStateObject_setStateObject (s.createObject env a).2.1
      ((s.createObject env a).2.1.setBalance p.data.balance) rfl]
    exact undoes_appendJournal_store hwf e _ (hundo _ rfl)
  · exact he ▸ undoes_appendJournal_store hwf e _ (hundo _ rfl)

theorem Suicide_undoes (hwf : s.Wf env) (a : Address) : Undoes env s (s.Suicide env a).1 := by
  simp only [Suicide]
  split
  · exact Undoes.refl hwf
  · rename_i o ho
    have ha : o.address = a := getStateObject_address hwf.keyed ho
    subst ha
    refine undoes_appendJournal_store hwf _ _ ?_
    simp only [JournalEntry.undo]
    exact congrArg some (View.modify_getD _ _
      (undo_modify_store ho _ (by rfl) (by exact (live_objects ho).2) _ (fun _ => by rfl) (by rfl)))

theorem AddRefund_undoes (hwf : s.Wf env) (gas : UInt64) : Undoes env s (s.AddRefund gas) :=
  undoes_appendJournal_update hwf _ _ ⟨rfl, rfl, rfl, rfl, rfl⟩ rfl

theorem SubRefund_undoes (hwf : s.Wf env) (gas : UInt64) {s' : StateDB Address Hash}
    (h : s.SubRefund gas = some s') : Undoes env s s' := by
  simp only [SubRefund] at h
  split at h
  · cases h
  · cases h
    exact undoes_appendJournal_update hwf _ _ ⟨rfl, rfl, rfl, rfl, rfl⟩ rfl

theorem AddLog_undoes (hwf : s.Wf env) (log : Log Address Hash) : Undoes env s (s.AddLog log) := by
  exact undoes_appendJournal_update hwf _ _ ⟨rfl, rfl, rfl, rfl, rfl⟩
    (View.undo_addLogChange env s.db (s.view env) s.thash _)

theorem AddPreimage_undoes (hwf : s.Wf env) (hash : Hash) (preimage : List UInt8) :
    Undoes env s (s.AddPreimage hash preimage) := by
  simp only [AddPreimage]
  split
  · rename_i hnone
    exact undoes_appendJournal_update hwf _ _ ⟨rfl, rfl, rfl, rfl, rfl⟩
      (View.undo_addPreimageChange env s.db (s.view env) hash preimage hnone)
  · exact Undoes.refl hwf

/-! ## Snapshots -/

theorem Snapshot_undoes (hwf : s.Wf env) : Undoes env s (s.Snapshot).2 where
  wf := ⟨hwf.keyed, fun r hr => by
    simp only [Snapshot, List.mem_append, List.mem_singleton] at hr
    rcases hr with hr | rfl
    · exact (hwf.revisions r hr).trans (Nat.lt_succ_self _)
    · exact Nat.lt_succ_self _, hwf.dirties⟩
  db := rfl
  revisions := List.prefix_append _ _
  nextRevisionId := Nat.le_succ _
  undo := ⟨[], by simp [Snapshot], rfl⟩

/-- `sort.Search` finds the snapshot's revision: every revision before it has a smaller id. -/
theorem findIdx_revision (l rest : List Revision) (r : Revision) (hl : ∀ q ∈ l, q.id < r.id) :
    (l ++ r :: rest).findIdx (fun q => decide (r.id ≤ q.id)) = l.length := by
  have hnone : l.findIdx (fun q => decide (r.id ≤ q.id)) = l.length := by
    rw [List.findIdx_eq_length]
    intro q hq
    simpa using hl q hq
  rw [List.findIdx_append, hnone, if_neg (lt_irrefl _), List.findIdx_cons]
  simp

/-- `RevertToSnapshot` of a revision that `sort.Search` finds after `l`: the journal reverted
to the revision's length, and the revisions cut back to `l`. -/
theorem RevertToSnapshot_found (env : Env Address Hash) {s₂ : StateDB Address Hash} {l rest : List Revision} {r : Revision}
    (hvr : s₂.validRevisions = l ++ r :: rest) (hl : ∀ q ∈ l, q.id < r.id) :
    s₂.RevertToSnapshot env r.id =
      (s₂.revertJournal env r.journalIndex).map fun t => { t with validRevisions := l } := by
  have hidx := findIdx_revision l rest r hl
  have hget : (l ++ r :: rest)[l.length]? = some r := by simp
  simp only [RevertToSnapshot, hvr, hidx, hget, ne_eq, not_true_eq_false, if_false, List.take_left]

/-- The journal reverted to a length `pre` had: the entries after it undone and dropped. -/
theorem revertJournal_of_revertEntries {s₂ t : StateDB Address Hash}
    {pre E : List (JournalEntry Address Hash)} (hE : s₂.journal.entries = pre ++ E)
    (ht : revertEntries env E s₂ = some t) :
    s₂.revertJournal env pre.length = some { t with journal := { t.journal with entries := pre } } := by
  simp only [revertJournal, hE, List.drop_left, ht, Option.map_some, (revertEntries_frame env E ht).entries,
    List.take_left]

/-- **Reverting to a snapshot after a run the journal undoes.** The revision is found, the
run's entries are undone, and what is left is the state at the snapshot as the accessors see
it, with the journal it had. -/
theorem revertToSnapshot_of_undoes (hwf : s.Wf env) {s₂ : StateDB Address Hash}
    (h : Undoes env (s.Snapshot).2 s₂) :
    ∃ s₃, s₂.RevertToSnapshot env (s.Snapshot).1 = some s₃ ∧ Undoes env s s₃ ∧
      s₃.journal.entries = s.journal.entries ∧ s₃.view env = s.view env := by
  obtain ⟨rest, hrest⟩ := h.revisions
  obtain ⟨E, hE, hundo⟩ := h.undo
  have hE' : s₂.journal.entries = s.journal.entries ++ E := hE
  -- the run's entries undo to the snapshot's view
  obtain ⟨t, ht, htv⟩ : ∃ t, revertEntries env E s₂ = some t ∧ t.view env = s.view env := by
    have hrev := revertEntries_view env E s₂
    rw [h.db, hundo] at hrev
    exact Option.map_eq_some_iff.mp hrev
  have hframe := revertEntries_frame env E ht
  -- the snapshot's revision stands right after the revisions of `s`
  have hvr : s₂.validRevisions =
      s.validRevisions ++ ⟨s.nextRevisionId, s.journal.entries.length⟩ :: rest := by
    rw [← hrest]
    simp [Snapshot]
  have hrev := RevertToSnapshot_found env hvr hwf.revisions
  dsimp only at hrev
  rw [revertJournal_of_revertEntries hE' ht, Option.map_some] at hrev
  have hnext : s.nextRevisionId < t.nextRevisionId := hframe.nextRevisionId ▸ h.nextRevisionId
  refine ⟨_, hrev, ⟨⟨hframe.keyed h.wf.keyed, ?_, ?_⟩, hframe.db.trans h.db, List.prefix_refl _,
    hnext.le, [], by simp, congrArg some htv⟩, rfl, htv⟩
  · intro q hq
    exact (hwf.revisions q hq).trans hnext
  · intro a ha
    -- the undone entries are uncounted: what is left counts the snapshot's entries
    show t.journal.dirties a = dirtyCount a s.journal.entries
    rw [hframe.dirties, h.wf.dirties a ha, hE', dirtyCount_append]
    ring

end StateDB

/-! ## Runs of operations -/

mutual

/-- **Every operation is undone by its entries**, a call frame included. -/
theorem runOp_undoes (env : Env Address Hash) :
    ∀ (op : Op Address Hash) (s s' : StateDB Address Hash), s.Wf env → runOp env op s = some s' →
      Undoes env s s'
  | .setBalance a amount, s, s', hwf, h => by
    cases h
    exact s.SetBalance_undoes hwf a amount
  | .addBalance a amount, s, s', hwf, h => by
    cases h
    exact s.AddBalance_undoes hwf a amount
  | .subBalance a amount, s, s', hwf, h => by
    cases h
    exact s.SubBalance_undoes hwf a amount
  | .setNonce a nonce, s, s', hwf, h => by
    cases h
    exact s.SetNonce_undoes hwf a nonce
  | .setCode a code, s, s', hwf, h => by
    cases h
    exact s.SetCode_undoes hwf a code
  | .setState a key value, s, s', hwf, h => by
    cases h
    exact s.SetState_undoes hwf a key value
  | .createAccount a, s, s', hwf, h => by
    cases h
    exact s.CreateAccount_undoes hwf a
  | .suicide a, s, s', hwf, h => by
    cases h
    exact s.Suicide_undoes hwf a
  | .addRefund gas, s, s', hwf, h => by
    cases h
    exact s.AddRefund_undoes hwf gas
  | .subRefund gas, s, s', hwf, h => s.SubRefund_undoes hwf gas h
  | .addLog log, s, s', hwf, h => by
    cases h
    exact s.AddLog_undoes hwf log
  | .addPreimage hash preimage, s, s', hwf, h => by
    cases h
    exact s.AddPreimage_undoes hwf hash preimage
  | .frame ops fails, s, s', hwf, h => by
    simp only [runOp, Option.bind_eq_some_iff] at h
    obtain ⟨s₂, hrun, hend⟩ := h
    -- the frame's own run, from its snapshot
    have hinner : Undoes env (s.Snapshot).2 s₂ :=
      runOps_undoes env ops _ s₂ (StateDB.Snapshot_undoes hwf).wf hrun
    cases fails with
    | true =>
      -- a failed frame reverts to its snapshot: nothing of it is left to undo
      obtain ⟨s₃, hrev, hundo, -⟩ := StateDB.revertToSnapshot_of_undoes hwf hinner
      rw [if_pos rfl, hrev, Option.some.injEq] at hend
      exact hend ▸ hundo
    | false =>
      -- a frame that succeeds keeps its entries for the frames around it
      cases hend
      exact (StateDB.Snapshot_undoes hwf).trans hinner

/-- **Every run of operations is undone by its entries.** -/
theorem runOps_undoes (env : Env Address Hash) :
    ∀ (ops : List (Op Address Hash)) (s s' : StateDB Address Hash), s.Wf env →
      runOps env ops s = some s' → Undoes env s s'
  | [], s, s', hwf, h => by
    cases h
    exact Undoes.refl hwf
  | op :: ops, s, s', hwf, h => by
    simp only [runOps, Option.bind_eq_some_iff] at h
    obtain ⟨s₁, h₁, h₂⟩ := h
    have hop : Undoes env s s₁ := runOp_undoes env op s s₁ hwf h₁
    exact hop.trans (runOps_undoes env ops s₁ s' hop.wf h₂)

end

/-! ## What the accessors return -/

/-- What the accessors return, each at every address and key. -/
structure Observation (Address Hash : Type) where
  exist : Address → Bool
  empty : Address → Bool
  hasSuicided : Address → Bool
  balance : Address → Int
  nonce : Address → Nat
  code : Address → List UInt8
  codeHash : Address → Hash
  codeSize : Address → Nat
  state : Address → Hash → Hash
  committedState : Address → Hash → Hash
  refund : UInt64
  logs : Hash → List (Log Address Hash)
  preimages : Hash → Option (List UInt8)

/-- The accessors of a state. -/
def StateDB.observe (env : Env Address Hash) (s : StateDB Address Hash) : Observation Address Hash :=
  ⟨s.Exist env, s.Empty env, s.HasSuicided env, s.GetBalance env, s.GetNonce env, s.GetCode env,
    s.GetCodeHash env, s.GetCodeSize env, s.GetState env, s.GetCommittedState env, s.GetRefund,
    s.GetLogs, s.Preimages⟩

/-- A read of the live object at `a` in the view, with `d` where there is none. -/
def View.read {β : Type} (v : View Address Hash) (a : Address) (d : β)
    (f : ObjView Address Hash → β) : β :=
  match v.live a with
  | some ov => f ov
  | none => d

/-- The accessors, read off the view. -/
def View.observe (env : Env Address Hash) (v : View Address Hash) : Observation Address Hash :=
  ⟨fun a => (v.live a).isSome,
    fun a => v.read a true fun ov =>
      decide (ov.data.nonce = 0 ∧ ov.data.balance = 0 ∧ ov.data.codeHash = env.emptyCodeHash),
    fun a => v.read a false (·.suicided),
    fun a => v.read a 0 (·.data.balance),
    fun a => v.read a 0 (·.data.nonce),
    fun a => v.read a [] fun ov => ov.code.getD [],
    fun a => v.read a 0 (·.data.codeHash),
    fun a => v.read a 0 (·.codeSize),
    fun a key => v.read a 0 (·.state key),
    fun a key => v.read a 0 (·.committedState key),
    v.refund, v.logs, v.preimages⟩

omit [DecidableEq Address] in
/-- The accessors see only the view. -/
theorem observe_eq_view (env : Env Address Hash) (s : StateDB Address Hash) :
    s.observe env = (s.view env).observe env := by
  have hread : ∀ {β : Type} (a : Address) (d : β) (f : ObjView Address Hash → β),
      (s.view env).read a d f = (s.getStateObject env a).elim d fun o => f (o.view env s.db) := by
    intro β a d f
    rw [View.read, StateDB.live_view]
    cases s.getStateObject env a <;> rfl
  simp only [StateDB.observe, View.observe, hread, StateDB.live_view, Option.isSome_map]
  -- every accessor reads the live object, and a read of it is a read of its view
  congr 1
  case e_state | e_committedState =>
    funext a key
    simp only [StateDB.GetState, StateDB.GetCommittedState]
    cases s.getStateObject env a <;> rfl
  all_goals
    funext a
    simp only [StateDB.Empty, StateDB.HasSuicided, StateDB.GetBalance, StateDB.GetNonce,
      StateDB.GetCode, StateDB.GetCodeHash, StateDB.GetCodeSize]
    cases s.getStateObject env a <;> rfl

/-- **`RevertToSnapshot` is exact.** From a state of a transaction, take `id := Snapshot()`
and run any operations, call frames that fail or succeed included; `RevertToSnapshot(id)`
then succeeds, every accessor returns what it returned at the snapshot, and the journal
counts, at every address but RIPEMD's, its own entries. -/
theorem revertToSnapshot_restores (env : Env Address Hash) (s : StateDB Address Hash)
    (hwf : s.Wf env) (ops : List (Op Address Hash)) (s₂ : StateDB Address Hash)
    (hrun : runOps env ops (s.Snapshot).2 = some s₂) :
    ∃ s₃, s₂.RevertToSnapshot env (s.Snapshot).1 = some s₃ ∧ s₃.observe env = s.observe env ∧
      ∀ a, a ≠ env.ripemd → s₃.journal.dirties a = dirtyCount a s₃.journal.entries := by
  have hundo : Undoes env (s.Snapshot).2 s₂ :=
    runOps_undoes env ops _ s₂ (StateDB.Snapshot_undoes hwf).wf hrun
  obtain ⟨s₃, hrev, hund, -, hview⟩ := StateDB.revertToSnapshot_of_undoes hwf hundo
  refine ⟨s₃, hrev, ?_, hund.wf.dirties⟩
  rw [observe_eq_view, observe_eq_view, hview]

/-- A balance set and a call frame that adds a refund and succeeds, both taken back. -/
theorem revertToSnapshot_restores_setBalance :
    (New ⟨fun _ => none, fun _ _ => 0, fun _ => []⟩ : StateDB Nat Nat).Wf ⟨fun _ => 0, 0, 3⟩ ∧
      runOps ⟨fun _ => 0, 0, 3⟩ [.setBalance 1 5, .frame [.addRefund 3] false]
          (New ⟨fun _ => none, fun _ _ => 0, fun _ => []⟩ : StateDB Nat Nat).Snapshot.2 =
        some ((((New ⟨fun _ => none, fun _ _ => 0, fun _ => []⟩ : StateDB Nat Nat).Snapshot.2.SetBalance
          ⟨fun _ => 0, 0, 3⟩ 1 5).Snapshot.2.AddRefund 3)) ∧
      ∃ s₃, (((New ⟨fun _ => none, fun _ _ => 0, fun _ => []⟩ : StateDB Nat Nat).Snapshot.2.SetBalance
          ⟨fun _ => 0, 0, 3⟩ 1 5).Snapshot.2.AddRefund 3).RevertToSnapshot ⟨fun _ => 0, 0, 3⟩
            (New ⟨fun _ => none, fun _ _ => 0, fun _ => []⟩ : StateDB Nat Nat).Snapshot.1 = some s₃ ∧
        s₃.observe ⟨fun _ => 0, 0, 3⟩ =
          (New ⟨fun _ => none, fun _ _ => 0, fun _ => []⟩ : StateDB Nat Nat).observe ⟨fun _ => 0, 0, 3⟩ ∧
        ∀ a, a ≠ 3 → s₃.journal.dirties a = dirtyCount a s₃.journal.entries :=
  ⟨New_wf _ _, rfl,
    revertToSnapshot_restores _ _ (New_wf _ _) [.setBalance 1 5, .frame [.addRefund 3] false] _ rfl⟩

end GoMetadium.State
