import Mathlib
import GoMetadium.Metadium.Admin

set_option autoImplicit false

/-! # The governance diff is exact

`getGovData` sorts the old and the new node lists by name and merges them. With unique names
the sorted lists are strictly increasing, and the merge then sees, at each step, whether the
smaller name is on one side only or on both: a name on the old side only is deleted, one on
the new side only is added, and a name on both is updated when the nodes differ.

The statement is that of sets, as filters: the added nodes are the new ones whose name is not
among the old names (`absentFrom`), the deleted nodes the old ones whose name is not among
the new names, and the updated nodes the new ones that have an old node of their name which
is not `eq` to them (`changedIn`). `mergeNodes_merged` says the merge loop with its tail loops
computes these filters over the sorted lists, and `getGovData_diff_exact` reads them back over
the lists as given, in name order.
-/

namespace GoMetadium.Admin

variable {Name : Type} [LinearOrder Name]

/-! ## The diff as filters -/

/-- The name of `n` is not the name of a node of `l`. -/
def absentFrom (l : List (MetaNode Name)) (n : MetaNode Name) : Bool :=
  decide (n.name ∉ l.map MetaNode.name)

/-- A node of `l` has the name of `n` and is not `eq` to it. -/
def changedIn (l : List (MetaNode Name)) (n : MetaNode Name) : Bool :=
  l.any fun o => decide (o.name = n.name) && !o.eq n

/-- Strictly increasing names, as `sort.Slice` leaves a list of unique names. -/
def NameSorted (l : List (MetaNode Name)) : Prop :=
  l.Pairwise fun a b => a.name < b.name

theorem absentFrom_cons_of_ne {o m : MetaNode Name} {os : List (MetaNode Name)}
    (h : m.name ≠ o.name) : absentFrom (o :: os) m = absentFrom os m := by
  simp [absentFrom, h]

theorem changedIn_cons_of_ne {o m : MetaNode Name} {os : List (MetaNode Name)}
    (h : o.name ≠ m.name) : changedIn (o :: os) m = changedIn os m := by
  simp [changedIn, h]

/-- No node of `l` has a name below all of `l`'s names. -/
theorem absentFrom_of_lt {l : List (MetaNode Name)} {n : MetaNode Name}
    (h : ∀ m ∈ l, n.name < m.name) : absentFrom l n = true := by
  simp only [absentFrom, decide_eq_true_eq, List.mem_map, not_exists, not_and]
  intro m hm heq
  exact (h m hm).ne heq.symm

theorem changedIn_of_lt {l : List (MetaNode Name)} {n : MetaNode Name}
    (h : ∀ m ∈ l, n.name < m.name) : changedIn l n = false := by
  simp only [changedIn, List.any_eq_false, Bool.and_eq_true, decide_eq_true_eq, not_and]
  intro m hm heq
  exact absurd heq (h m hm).ne'

theorem filter_absentFrom_cons {o : MetaNode Name} {os l : List (MetaNode Name)}
    (h : ∀ m ∈ l, m.name ≠ o.name) : l.filter (absentFrom (o :: os)) = l.filter (absentFrom os) :=
  List.filter_congr fun m hm => absentFrom_cons_of_ne (h m hm)

theorem filter_changedIn_cons {o : MetaNode Name} {os l : List (MetaNode Name)}
    (h : ∀ m ∈ l, o.name ≠ m.name) : l.filter (changedIn (o :: os)) = l.filter (changedIn os) :=
  List.filter_congr fun m hm => changedIn_cons_of_ne (h m hm)

theorem NameSorted.tail {n : MetaNode Name} {ns : List (MetaNode Name)}
    (h : NameSorted (n :: ns)) : NameSorted ns :=
  (List.pairwise_cons.mp h).2

/-- The head of a sorted list has the least name, also of every name that is not below it. -/
theorem NameSorted.lt_of_mem {n m : MetaNode Name} {ns : List (MetaNode Name)}
    (h : NameSorted (n :: ns)) (hm : m ∈ ns) : n.name < m.name :=
  List.rel_of_pairwise_cons h hm

theorem NameSorted.le_of_mem {n m : MetaNode Name} {ns : List (MetaNode Name)}
    (h : NameSorted (n :: ns)) (hm : m ∈ n :: ns) : n.name ≤ m.name := by
  rcases List.mem_cons.mp hm with rfl | hm
  · exact le_rfl
  · exact (h.lt_of_mem hm).le

/-! ## The merge loop -/

section Merge

variable (o n : MetaNode Name) (os ns : List (MetaNode Name)) (data : GovData Name)

theorem mergeNodes_of_eq (h : compare o.name n.name = .eq) :
    mergeNodes (o :: os) (n :: ns) data =
      mergeNodes os ns
        (if !o.eq n then { data with updatedNodes := data.updatedNodes ++ [n] } else data) := by
  rw [mergeNodes, h]

theorem mergeNodes_of_lt (h : compare o.name n.name = .lt) :
    mergeNodes (o :: os) (n :: ns) data =
      mergeNodes os (n :: ns) { data with deletedNodes := data.deletedNodes ++ [o] } := by
  rw [mergeNodes, h]

theorem mergeNodes_of_gt (h : compare o.name n.name = .gt) :
    mergeNodes (o :: os) (n :: ns) data =
      mergeNodes (o :: os) ns { data with addedNodes := data.addedNodes ++ [n] } := by
  rw [mergeNodes, h]

end Merge

/-- What the merge loop leaves, `r`, once the tail loops have run: after what `data` holds, the
added, deleted and updated nodes of the two lists as filters. -/
structure Merged (olds news : List (MetaNode Name)) (data : GovData Name)
    (r : List (MetaNode Name) × List (MetaNode Name) × GovData Name) : Prop where
  added : r.2.2.addedNodes ++ r.2.1 = data.addedNodes ++ news.filter (absentFrom olds)
  deleted : r.2.2.deletedNodes ++ r.1 = data.deletedNodes ++ olds.filter (absentFrom news)
  updated : r.2.2.updatedNodes = data.updatedNodes ++ news.filter (changedIn olds)

/-- Equal names: neither node is added or deleted; the new node is updated unless `eq`. -/
theorem Merged.of_eq {o n : MetaNode Name} {os ns : List (MetaNode Name)} {data : GovData Name}
    {r : List (MetaNode Name) × List (MetaNode Name) × GovData Name}
    (ho : NameSorted (o :: os)) (hn : NameSorted (n :: ns)) (h : o.name = n.name)
    (ih : Merged os ns
      (if !o.eq n then { data with updatedNodes := data.updatedNodes ++ [n] } else data) r) :
    Merged (o :: os) (n :: ns) data r := by
  -- the names after the head on either side are above the common name
  have hns : ∀ m ∈ ns, m.name ≠ o.name := fun m hm => (h ▸ hn.lt_of_mem hm).ne'
  have hos : ∀ m ∈ os, m.name ≠ n.name := fun m hm => (h ▸ ho.lt_of_mem hm).ne'
  have hn_old : absentFrom (o :: os) n = false := by simp [absentFrom, h]
  have ho_new : absentFrom (n :: ns) o = false := by simp [absentFrom, h]
  have hchanged : changedIn (o :: os) n = !o.eq n := by
    rw [changedIn, List.any_cons, ← changedIn, changedIn_of_lt fun m hm => h ▸ ho.lt_of_mem hm]
    simp [h]
  constructor
  · rw [List.filter_cons_of_neg (by simp [hn_old]), filter_absentFrom_cons hns, ih.added]
    congr 1
    split_ifs <;> rfl
  · rw [List.filter_cons_of_neg (by simp [ho_new]), filter_absentFrom_cons hos, ih.deleted]
    congr 1
    split_ifs <;> rfl
  · rw [ih.updated, List.filter_cons, hchanged,
      filter_changedIn_cons fun m hm => (hns m hm).symm]
    split_ifs <;> simp

/-- The old name is smaller: the old node is deleted. -/
theorem Merged.of_lt {o n : MetaNode Name} {os ns : List (MetaNode Name)} {data : GovData Name}
    {r : List (MetaNode Name) × List (MetaNode Name) × GovData Name}
    (hn : NameSorted (n :: ns)) (h : o.name < n.name)
    (ih : Merged os (n :: ns) { data with deletedNodes := data.deletedNodes ++ [o] } r) :
    Merged (o :: os) (n :: ns) data r := by
  -- every new name is above the old node's
  have hlt : ∀ m ∈ n :: ns, o.name < m.name := fun m hm => lt_of_lt_of_le h (hn.le_of_mem hm)
  constructor
  · rw [ih.added, filter_absentFrom_cons fun m hm => (hlt m hm).ne']
  · rw [ih.deleted, List.filter_cons_of_pos (absentFrom_of_lt hlt), List.append_assoc]
    rfl
  · rw [ih.updated, filter_changedIn_cons fun m hm => (hlt m hm).ne]

/-- The new name is smaller: the new node is added. -/
theorem Merged.of_gt {o n : MetaNode Name} {os ns : List (MetaNode Name)} {data : GovData Name}
    {r : List (MetaNode Name) × List (MetaNode Name) × GovData Name}
    (ho : NameSorted (o :: os)) (h : n.name < o.name)
    (ih : Merged (o :: os) ns { data with addedNodes := data.addedNodes ++ [n] } r) :
    Merged (o :: os) (n :: ns) data r := by
  -- every old name is above the new node's
  have hlt : ∀ m ∈ o :: os, n.name < m.name := fun m hm => lt_of_lt_of_le h (ho.le_of_mem hm)
  constructor
  · rw [ih.added, List.filter_cons_of_pos (absentFrom_of_lt hlt), List.append_assoc]
    rfl
  · rw [ih.deleted, filter_absentFrom_cons fun m hm => (hlt m hm).ne']
  · rw [ih.updated, List.filter_cons_of_neg (by simp [changedIn_of_lt hlt])]

/-- One side is used up: the tail loops add or delete all that is left of the other. -/
theorem Merged.of_nil {olds news : List (MetaNode Name)} {data : GovData Name}
    (h : olds = [] ∨ news = []) : Merged olds news data (olds, news, data) := by
  have hnone : ∀ l : List (MetaNode Name), l.filter (absentFrom []) = l := fun l =>
    List.filter_eq_self.mpr fun n _ => by simp [absentFrom]
  rcases h with rfl | rfl
  · refine ⟨?_, ?_, ?_⟩
    · rw [hnone]
    · simp
    · simp [changedIn]
  · refine ⟨?_, ?_, ?_⟩
    · simp
    · rw [hnone]
    · simp

/-- The merge loop of `getGovData`, with its tail loops, computes the diff of two lists sorted
by strictly increasing names. -/
theorem mergeNodes_merged (olds news : List (MetaNode Name)) (data : GovData Name)
    (ho : NameSorted olds) (hn : NameSorted news) :
    Merged olds news data (mergeNodes olds news data) := by
  induction olds, news, data using mergeNodes.induct with
  | case1 o os n ns data h _ ih =>
    rw [mergeNodes_of_eq _ _ _ _ _ h]
    exact .of_eq ho hn (compare_eq_iff_eq.mp h) (ih ho.tail hn.tail)
  | case2 o os n ns data h ih =>
    rw [mergeNodes_of_lt _ _ _ _ _ h]
    exact .of_lt hn (compare_lt_iff_lt.mp h) (ih ho.tail hn)
  | case3 o os n ns data h ih =>
    rw [mergeNodes_of_gt _ _ _ _ _ h]
    exact .of_gt ho (compare_gt_iff_gt.mp h) (ih ho hn.tail)
  | case4 olds news data hnil =>
    -- the catch-all branch: one of the lists is empty
    have hend : olds = [] ∨ news = [] := by
      cases olds with
      | nil => exact .inl rfl
      | cons o os =>
        cases news with
        | nil => exact .inr rfl
        | cons n ns => exact (hnil o os n ns rfl rfl).elim
    rw [mergeNodes.eq_2 olds news data hnil]
    exact .of_nil hend

/-- The merge loop changes only the three lists of its `GovData`. -/
theorem mergeNodes_keeps (olds news : List (MetaNode Name)) (data : GovData Name) :
    ∃ a u d, (mergeNodes olds news data).2.2 =
      { data with addedNodes := a, updatedNodes := u, deletedNodes := d } := by
  induction olds, news, data using mergeNodes.induct with
  | case1 o os n ns data h data' ih =>
    simp only [data', dite_eq_ite] at ih
    obtain ⟨a, u, d, he⟩ := ih
    rw [mergeNodes_of_eq _ _ _ _ _ h, he]
    split_ifs <;> exact ⟨_, _, _, rfl⟩
  | case2 o os n ns data h ih =>
    obtain ⟨a, u, d, he⟩ := ih
    rw [mergeNodes_of_lt _ _ _ _ _ h, he]
    exact ⟨_, _, _, rfl⟩
  | case3 o os n ns data h ih =>
    obtain ⟨a, u, d, he⟩ := ih
    rw [mergeNodes_of_gt _ _ _ _ _ h, he]
    exact ⟨_, _, _, rfl⟩
  | case4 olds news data hnil =>
    rw [mergeNodes.eq_2 olds news data hnil]
    exact ⟨_, _, _, rfl⟩

/-- The diff sorts the node list read and fills the three lists; the rest of `data` stays. -/
theorem diffNodes_keeps (old new : List (MetaNode Name)) (data : GovData Name) :
    ∃ a u d, diffNodes old new data =
      { data with nodes := sortByName new, addedNodes := a, updatedNodes := u, deletedNodes := d } := by
  obtain ⟨a, u, d, he⟩ := mergeNodes_keeps (sortByName old) (sortByName new)
    { data with nodes := sortByName new }
  simp only [diffNodes, he]
  exact ⟨_, _, _, rfl⟩

/-! ## Sorting by name -/

theorem sortByName_perm (l : List (MetaNode Name)) : (sortByName l).Perm l :=
  List.mergeSort_perm _ _

/-- Sorted by name, a list of unique names is strictly increasing. -/
theorem sortByName_sorted {l : List (MetaNode Name)} (h : (l.map MetaNode.name).Nodup) :
    NameSorted (sortByName l) := by
  have hle : (sortByName l).Pairwise fun a b => a.name ≤ b.name := by
    have := @List.pairwise_mergeSort _ (fun a b : MetaNode Name => decide (a.name ≤ b.name))
      (fun a b c hab hbc => by simpa using le_trans (by simpa using hab) (by simpa using hbc))
      (fun a b => by simpa using le_total a.name b.name) l
    simpa [sortByName] using this
  have hne : (sortByName l).Pairwise fun a b => a.name ≠ b.name :=
    List.pairwise_map.mp (((sortByName_perm l).map _).nodup_iff.mpr h)
  exact (hle.and hne).imp fun hab => lt_of_le_of_ne hab.1 hab.2

theorem absentFrom_perm {l l' : List (MetaNode Name)} (h : l.Perm l') :
    absentFrom l = absentFrom l' :=
  funext fun n => by simp only [absentFrom, (h.map _).mem_iff]

theorem changedIn_perm {l l' : List (MetaNode Name)} (h : l.Perm l') :
    changedIn l = changedIn l' :=
  funext fun _ => h.any_eq

/-! ## The diff of `getGovData` -/

/-- The diff the governance update intends between the nodes held, `old`, and those read,
`new`: the new nodes with a name not among the old ones are added, the old nodes with a name
not among the new ones deleted, and the new nodes whose old namesake differs in name, id, ip
or port updated; each list in strictly increasing name order, so with no node twice. -/
structure ExactDiff (old new added deleted updated : List (MetaNode Name)) : Prop where
  added_mem : ∀ n, n ∈ added ↔ n ∈ new ∧ n.name ∉ old.map MetaNode.name
  deleted_mem : ∀ o, o ∈ deleted ↔ o ∈ old ∧ o.name ∉ new.map MetaNode.name
  updated_mem : ∀ n, n ∈ updated ↔
    n ∈ new ∧ ∃ o ∈ old, o.name = n.name ∧ (o.name, o.id, o.ip, o.port) ≠ (n.name, n.id, n.ip, n.port)
  added_sorted : NameSorted added
  deleted_sorted : NameSorted deleted
  updated_sorted : NameSorted updated

theorem MetaNode.eq_eq_false_iff {o n : MetaNode Name} :
    o.eq n = false ↔ (o.name, o.id, o.ip, o.port) ≠ (n.name, n.id, n.ip, n.port) := by
  simp [MetaNode.eq]

theorem mem_filter_absentFrom {l l' : List (MetaNode Name)} {n : MetaNode Name} :
    n ∈ (sortByName l).filter (absentFrom l') ↔ n ∈ l ∧ n.name ∉ l'.map MetaNode.name := by
  simp [absentFrom, (sortByName_perm l).mem_iff]

theorem mem_filter_changedIn {l l' : List (MetaNode Name)} {n : MetaNode Name} :
    n ∈ (sortByName l).filter (changedIn l') ↔
      n ∈ l ∧ ∃ o ∈ l', o.name = n.name ∧
        (o.name, o.id, o.ip, o.port) ≠ (n.name, n.id, n.ip, n.port) := by
  simp only [List.mem_filter, (sortByName_perm l).mem_iff, changedIn, List.any_eq_true,
    Bool.and_eq_true, decide_eq_true_eq, Bool.not_eq_true', MetaNode.eq_eq_false_iff]

/-- The filters over the sorted lists are the intended diff. -/
theorem exactDiff_filters {old new : List (MetaNode Name)} (hnew : (new.map MetaNode.name).Nodup)
    (hold : (old.map MetaNode.name).Nodup) :
    ExactDiff old new ((sortByName new).filter (absentFrom old))
      ((sortByName old).filter (absentFrom new)) ((sortByName new).filter (changedIn old)) where
  added_mem _ := mem_filter_absentFrom
  deleted_mem _ := mem_filter_absentFrom
  updated_mem _ := mem_filter_changedIn
  added_sorted := (sortByName_sorted hnew).filter _
  deleted_sorted := (sortByName_sorted hold).filter _
  updated_sorted := (sortByName_sorted hnew).filter _

/-- The diff step of `getGovData` on lists of unique names: after what `data` holds, the three
filters over the sorted lists. -/
theorem diffNodes_merged {old new : List (MetaNode Name)} (data : GovData Name)
    (hold : (old.map MetaNode.name).Nodup) (hnew : (new.map MetaNode.name).Nodup) :
    (diffNodes old new data).addedNodes =
        data.addedNodes ++ (sortByName new).filter (absentFrom old) ∧
      (diffNodes old new data).deletedNodes =
        data.deletedNodes ++ (sortByName old).filter (absentFrom new) ∧
      (diffNodes old new data).updatedNodes =
        data.updatedNodes ++ (sortByName new).filter (changedIn old) := by
  have h := mergeNodes_merged (sortByName old) (sortByName new) { data with nodes := sortByName new }
    (sortByName_sorted hold) (sortByName_sorted hnew)
  simp only [diffNodes]
  rw [h.added, h.deleted, h.updated, absentFrom_perm (sortByName_perm old),
    absentFrom_perm (sortByName_perm new), changedIn_perm (sortByName_perm old)]
  exact ⟨rfl, rfl, rfl⟩

section Reach

variable {Address : Type}

/-- `getGovData` reaches the diff when every call it makes succeeds and, without a refresh,
the block and `modifiedBlock` are new; it starts the diff with no added, updated or deleted
node. -/
theorem getGovData_of_nodes {ma : MetaAdmin Name Address} {refresh : Bool} {reply : GovReply Name}
    {blockNum modifiedBlock : Int} {gasPrice : Nat} {new : List (MetaNode Name)}
    (hb : reply.blockNum = some blockNum) (hm : reply.modifiedBlock = some modifiedBlock)
    (hg : reply.gasPrice = some gasPrice) (hn : reply.nodes = some new)
    (hfresh : refresh = true ∨ (ma.lastBlock < blockNum ∧ ma.modifiedBlock ≠ modifiedBlock)) :
    getGovData ma refresh reply =
      (diffNodes ma.nodes.nodes new
        { blockNum := blockNum, modifiedBlock := modifiedBlock,
          blocksPer := reply.blocksPer.getD ma.blocksPer, gasPrice := some gasPrice }, false) := by
  have hblock : (!refresh && decide (blockNum ≤ ma.lastBlock)) = false := by
    rcases hfresh with rfl | ⟨hlt, -⟩ <;> simp [*]
  have hmod : (!refresh && decide (ma.modifiedBlock = modifiedBlock)) = false := by
    rcases hfresh with rfl | ⟨-, hne⟩ <;> simp [*]
  simp only [getGovData, hb, hm, hg, hn, hblock, hmod, Bool.false_eq_true, ↓reduceIte]

/-- The diff of `getGovData` is exact: when it reads the node list, and the nodes held and the
nodes read each have unique names, its added, deleted and updated nodes are the intended diff,
each in name order. -/
theorem getGovData_diff_exact (ma : MetaAdmin Name Address) (refresh : Bool) (reply : GovReply Name)
    (blockNum modifiedBlock : Int) (gasPrice : Nat) (new : List (MetaNode Name))
    (hb : reply.blockNum = some blockNum) (hm : reply.modifiedBlock = some modifiedBlock)
    (hg : reply.gasPrice = some gasPrice) (hn : reply.nodes = some new)
    (hfresh : refresh = true ∨ (ma.lastBlock < blockNum ∧ ma.modifiedBlock ≠ modifiedBlock))
    (hold : (ma.nodes.nodes.map MetaNode.name).Nodup) (hnew : (new.map MetaNode.name).Nodup) :
    ExactDiff ma.nodes.nodes new (getGovData ma refresh reply).1.addedNodes
      (getGovData ma refresh reply).1.deletedNodes (getGovData ma refresh reply).1.updatedNodes := by
  rw [getGovData_of_nodes hb hm hg hn hfresh]
  obtain ⟨hadded, hdeleted, hupdated⟩ := diffNodes_merged
    { blockNum := blockNum, modifiedBlock := modifiedBlock,
      blocksPer := reply.blocksPer.getD ma.blocksPer, gasPrice := some gasPrice } hold hnew
  rw [hadded, hdeleted, hupdated]
  exact exactDiff_filters hnew hold

/-- Nodes 1 and 2 held; node 2 read with a new ip, and node 3. -/
theorem getGovData_diff_exact_moved :
    let ma : MetaAdmin Nat Nat :=
      { addresses := ⟨0, 1, 2, 3⟩, selfId := "a", lastBlock := 4, modifiedBlock := 2,
        blocksPer := 100, gasPrice := none, self := none, blocksMined := 0,
        nodes := (NodeMap.empty.insert ⟨1, "a", "10.0.0.1", 8589, .unset, false⟩).insert
          ⟨2, "b", "10.0.0.2", 8589, .unset, false⟩ }
    let reply : GovReply Nat :=
      { blockNum := some 5, modifiedBlock := some 3, blocksPer := some 100, gasPrice := some 80,
        nodes := some [⟨3, "c", "10.0.0.3", 8589, .unset, false⟩,
          ⟨2, "b", "10.0.0.9", 8589, .unset, false⟩] }
    ExactDiff ma.nodes.nodes (reply.nodes.getD []) (getGovData ma false reply).1.addedNodes
      (getGovData ma false reply).1.deletedNodes (getGovData ma false reply).1.updatedNodes := by
  intro ma reply
  exact getGovData_diff_exact ma false reply 5 3 80 _ rfl rfl rfl rfl
    (.inr ⟨by decide, by decide⟩) (by decide) (by decide)

end Reach

end GoMetadium.Admin
