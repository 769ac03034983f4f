import GoMetadium.Trie.Shape

set_option autoImplicit false

/-! # Deletion from a canonical trie

`delete` of a HEX key from a canonical trie with no hash node in it succeeds with the fuel the
public operations pass, returns the root of a canonical trie, and removes what the trie holds
at that one key (`delete_spec`). What keeps the shape canonical are the two repairs of
`t.delete`: a short node whose child came back as a short node takes over the child's key
(the keys are joined), and a full node left with one child becomes a short node, with the
child's short node merged into it when there is one.
-/

namespace GoMetadium.Trie

open Node

variable (dbNode : List UInt8 → Option Node)

/-- What deleting `key` from `n` must give back as (`dirty`, `n'`): the root of a canonical
trie that holds nothing at `key` and what `n` holds at every other key, not empty where `n`
was full, and `n` itself when nothing changed. -/
structure DeletePost (n : Node) (key : List UInt8) (dirty : Bool) (n' : Node) : Prop where
  wf : n'.WfRoot
  full : n.isFull → n' ≠ .nil
  clean : dirty = false → n' = n
  lookup : ∀ k, n'.lookup k = if k = key then none else n.lookup k

/-- `delete` with the bound `fuel` meets its specification on every canonical root. -/
def DeleteSpec (fuel : Nat) : Prop :=
  ∀ (n : Node) (pfx key : List UInt8), n.WfRoot → IsKey key → key.length < fuel →
    ∃ dirty n', delete dbNode fuel n pfx key = .ok (dirty, n') ∧ DeletePost n key dirty n'

/-! ## Shapes and lookups of the repaired nodes -/

/-- A canonical short node keeps its shape under a longer key of nibbles in front. -/
theorem wf_short_append {p ckey : List UInt8} {cval : Node} {cf : NodeFlag} (hp : IsNibbles p)
    (hc : (short ckey cval cf).Wf) (f : NodeFlag) : (short (p ++ ckey) cval f).Wf := by
  rcases wf_short_iff.mp hc with ⟨hv, hk⟩ | ⟨hfull, hk0, hk, hw⟩
  · exact wf_short_iff.mpr (Or.inl ⟨hv, isKey_append hp hk⟩)
  · refine wf_short_iff.mpr (Or.inr ⟨hfull, by simp [hk0], isNibbles_append.mpr ⟨hp, hk⟩, hw⟩)

theorem resolve_of_wf {n : Node} (hn : n.Wf) (pfx : List UInt8) : resolve dbNode n pfx = .ok n := by
  cases n with
  | short _ _ _ => rfl
  | full _ _ => rfl
  | nil => exact absurd hn (by simp)
  | hash _ => exact absurd hn (by simp)
  | value _ => exact absurd hn (by simp)

/-- A full node with one live child holds what a short node of that child's byte holds. -/
theorem lookup_full_single {cs : Fin 17 → Node} {p : Fin 17} (h : ∀ j, j ≠ p → cs j = .nil)
    (f f' : NodeFlag) (k : List UInt8) :
    (full cs f).lookup k = (short [Fin.toByte p] (cs p) f').lookup k := by
  cases k with
  | nil => simp [lookup_short]
  | cons b q =>
    cases hb : nibIndex b with
    | none =>
      have hbp : b ≠ Fin.toByte p := by
        rintro rfl
        simp [nibIndex_toByte] at hb
      rw [lookup_short_cons_of_ne hbp]
      simp [lookup, hb]
    | some j =>
      obtain rfl := toByte_nibIndex hb
      rw [lookup_full_cons]
      by_cases hjp : j = p
      · subst hjp
        exact (lookup_short_append [Fin.toByte j] _ _ q).symm
      · rw [h j hjp, lookup_short_cons_of_ne (fun h => hjp (toByte_injective h))]
        rfl

theorem liveChildren_eq_singleton {cs : Fin 17 → Node} {p : Fin 17} (h : liveChildren cs = [p]) :
    ∀ j, j ≠ p → cs j = .nil := by
  intro j hj
  by_contra hne
  have hmem := mem_liveChildren.mpr hne
  rw [h, List.mem_singleton] at hmem
  exact hj hmem

/-- A full node with two live children has one besides any given index. -/
theorem exists_live_ne {cs : Fin 17 → Node} (h : 2 ≤ (liveChildren cs).length) (i : Fin 17) :
    ∃ j, j ≠ i ∧ cs j ≠ .nil := by
  obtain ⟨j₁, j₂, rest, hl⟩ : ∃ j₁ j₂ rest, liveChildren cs = j₁ :: j₂ :: rest := by
    match hl : liveChildren cs, h with
    | j₁ :: j₂ :: rest, _ => exact ⟨j₁, j₂, rest, rfl⟩
  have hnd := liveChildren_nodup cs
  rw [hl] at hnd
  have h₁₂ : j₁ ≠ j₂ := fun h => (List.nodup_cons.mp hnd).1 (h ▸ List.mem_cons_self)
  have hm₁ : cs j₁ ≠ .nil := mem_liveChildren.mp (by rw [hl]; exact List.mem_cons_self)
  have hm₂ : cs j₂ ≠ .nil := mem_liveChildren.mp (by rw [hl]; simp)
  by_cases h₁ : j₁ = i
  · exact ⟨j₂, fun h => h₁₂ (h₁.trans h.symm), hm₂⟩
  · exact ⟨j₁, h₁, hm₁⟩

/-! ## The cases of `delete` -/

section Cases

variable {fuel : Nat}

/-- A canonical node that holds nothing at `key`: nothing to change. -/
theorem deletePost_self {n : Node} {key : List UInt8} (hn : n.WfRoot) (h : n.lookup key = none) :
    DeletePost n key false n where
  wf := hn
  full hf := by
    rintro rfl
    simp [isFull] at hf
  clean _ := rfl
  lookup k := by
    split
    · subst k
      exact h
    · rfl

/-- From the child `i` of a full node, which `nibIndex b` selects. -/
theorem delete_child (ih : DeleteSpec dbNode fuel) {i : Fin 17} {c : Node} (hc : ChildOk i c)
    {b : UInt8} (hb : nibIndex b = some i) (pfx : List UInt8) {rest : List UInt8}
    (hkey : IsKey (b :: rest)) (hf : rest.length < fuel) :
    ∃ dirty c', delete dbNode fuel c pfx rest = .ok (dirty, c') ∧ ChildOk i c' ∧
      (dirty = false → c' = c) ∧ ∀ q, c'.lookup q = if q = rest then none else c.lookup q := by
  obtain ⟨fuel, rfl⟩ : ∃ f, fuel = f + 1 := ⟨fuel - 1, by omega⟩
  rcases hc.cases_key hb hkey with rfl | ⟨w, rfl, rfl⟩ | ⟨hw, hi, hrest⟩
  · -- nothing there
    exact ⟨false, .nil, rfl, Or.inl rfl, fun _ => rfl, fun q => by simp⟩
  · -- the value at the end of the key goes
    refine ⟨true, .nil, rfl, Or.inl rfl, by simp, fun q => ?_⟩
    cases q <;> simp
  · -- a canonical child: the specification one level down
    obtain ⟨dirty, c', hdel, post⟩ := ih c pfx rest hw.wfRoot hrest hf
    refine ⟨dirty, c', hdel, ?_, post.clean, post.lookup⟩
    rcases post.wf with h | h
    · exact Or.inl h
    · exact Or.inr (Or.inr ⟨hi, h⟩)

/-- From a short node: nothing when the key leaves the node's key, the whole leaf when it is
the leaf's key, and down into the full node below an extension otherwise. -/
theorem delete_short_spec (ih : DeleteSpec dbNode fuel) {nkey : List UInt8} {c : Node}
    {f : NodeFlag} (hn : (short nkey c f).Wf) {pfx key : List UInt8} (hkey : IsKey key)
    (hf : key.length < fuel + 1) :
    ∃ dirty n', delete dbNode (fuel + 1) (short nkey c f) pfx key = .ok (dirty, n') ∧
      DeletePost (short nkey c f) key dirty n' := by
  obtain ⟨p, a, b, rfl, rfl, hlen, hne⟩ := prefixLen_decomp key nkey
  rw [delete]
  simp only [hlen]
  cases b with
  | cons y b =>
    -- the key leaves the node's key: nothing to delete
    rw [if_pos (by simp)]
    refine ⟨false, _, rfl, deletePost_self hn.wfRoot ?_⟩
    rw [lookup_short_append_left]
    cases a with
    | nil => exact lookup_short_of_mismatch _ _ (by simp)
    | cons x a => exact lookup_short_cons_of_ne (hne x y rfl rfl) _ _ _ _
  | nil =>
    simp only [List.append_nil] at hn ⊢
    rw [if_neg (by simp)]
    by_cases ha : a = []
    · -- the key is the node's key: a leaf, which goes
      subst ha
      simp only [List.append_nil, if_true] at hkey ⊢
      rcases wf_short_iff.mp hn with ⟨hc, -⟩ | ⟨-, -, hk, -⟩
      · obtain ⟨w, rfl⟩ := isValue_iff.mp hc
        refine ⟨true, .nil, rfl, wfRoot_nil, by simp [isFull], by simp, fun k => ?_⟩
        rw [lookup_leaf]
        split <;> simp
      · exact absurd hk (not_isNibbles_of_isKey hkey)
    · -- the key runs on below an extension
      rw [if_neg (by simpa using ha)]
      rcases wf_short_iff.mp hn with ⟨-, hk⟩ | ⟨hc, hk0, hk, hw⟩
      · exact absurd (hk.eq_of_append hkey) ha
      have hrest := (isKey_of_append hkey ha).2
      have hlt : a.length < fuel := by
        have : p.length ≠ 0 := by simpa using hk0
        simp only [List.length_append] at hf
        omega
      obtain ⟨dirty, child, hdel, post⟩ := ih c (pfx ++ p) a hw.wfRoot hrest hlt
      simp only [List.take_left', List.drop_left', hdel, bind, Except.bind, pure, Except.pure]
      have hlook : ∀ k, (short p child newFlag).lookup k =
          if k = p ++ a then none else (short p c f).lookup k :=
        lookup_short_update f newFlag post.lookup
      cases dirty with
      | false =>
        obtain rfl := post.clean rfl
        refine ⟨false, _, rfl, deletePost_self hn.wfRoot ?_⟩
        rw [lookup_short_append, post.lookup]
        simp
      | true =>
        have hcw : child.Wf := post.wf.resolve_left (post.full hc)
        cases child with
        | short ckey cval cf =>
          -- the child came back as a short node: the two keys are joined
          refine ⟨true, _, rfl, (wf_short_append hk hcw newFlag).wfRoot, by simp [isFull], by simp,
            fun k => ?_⟩
          show (short (p ++ ckey) cval cf).lookup k = _
          rw [← lookup_short_short p ckey cval cf newFlag, hlook k]
        | full cs cf =>
          exact ⟨true, _, rfl, (wf_short_iff.mpr (Or.inr ⟨rfl, hk0, hk, hcw⟩)).wfRoot,
            by simp [isFull], by simp, hlook⟩
        | nil => exact absurd hcw (by simp)
        | hash _ => exact absurd hcw (by simp)
        | value _ => exact absurd hcw (by simp)

/-- From a full node: from the child the first byte selects, and then, if one child is left,
the full node becomes a short node. -/
theorem delete_full_spec (ih : DeleteSpec dbNode fuel) {cs : Fin 17 → Node} {f : NodeFlag}
    (hn : (full cs f).Wf) {pfx key : List UInt8} (hkey : IsKey key) (hf : key.length < fuel + 1) :
    ∃ dirty n', delete dbNode (fuel + 1) (full cs f) pfx key = .ok (dirty, n') ∧
      DeletePost (full cs f) key dirty n' := by
  obtain ⟨b, rest, rfl⟩ := List.exists_cons_of_ne_nil hkey.ne_nil
  obtain ⟨i, hi⟩ := IsKey.nibIndex_head hkey
  obtain ⟨hlive, hok⟩ := wf_full_iff.mp hn
  obtain ⟨dirty, c', hdel, hok', hclean, hlook⟩ :=
    delete_child dbNode ih (hok i) hi (pfx ++ [b]) hkey (by simpa using hf)
  have hidx : nibbleAt (b :: rest) 0 = .ok i := nibbleAt_of_drop List.drop_zero hi
  rw [delete]
  simp only [hidx, List.take_succ_cons, List.take_zero, List.drop_succ_cons, List.drop_zero, hdel,
    bind, Except.bind, pure, Except.pure]
  obtain rfl := toByte_nibIndex hi
  cases dirty with
  | false =>
    obtain rfl := hclean rfl
    refine ⟨false, _, rfl, deletePost_self hn.wfRoot ?_⟩
    rw [lookup_full_cons, hlook]
    simp
  | true =>
    simp only [Bool.not_true, Bool.false_eq_true, if_false]
    have hok'' : ∀ j, ChildOk j (Function.update cs i c' j) := by
      intro j
      by_cases hji : j = i
      · subst hji
        rwa [Function.update_self]
      · rw [Function.update_of_ne hji]
        exact hok j
    have hlook' : ∀ k, (full (Function.update cs i c') f).lookup k =
        if k = Fin.toByte i :: rest then none else (full cs f).lookup k :=
      lookup_full_update f f hlook
    obtain ⟨j, hji, hj⟩ := exists_live_ne hlive i
    have hj' : j ∈ liveChildren (Function.update cs i c') := by
      rw [mem_liveChildren, Function.update_of_ne hji]
      exact hj
    -- how many children are left decides the node `delete` returns
    have hrp := remainingPos_eq (Function.update cs i c')
    rcases hl : liveChildren (Function.update cs i c') with _ | ⟨q, _ | ⟨q₂, rest'⟩⟩
    · rw [hl] at hj'
      cases hj'
    · -- one child is left: a short node takes the full node's place
      rw [hl] at hrp
      simp only [hrp, Int.toNat_natCast, Fin.eta]
      rw [dif_pos (by omega)]
      have hq : Function.update cs i c' q ≠ .nil :=
        mem_liveChildren.mp (by rw [hl]; exact List.mem_singleton_self q)
      have hlookq : ∀ k, (full (Function.update cs i c') f).lookup k =
          (short [Fin.toByte q] (Function.update cs i c' q) f).lookup k :=
        lookup_full_single (liveChildren_eq_singleton hl) f f
      by_cases hq16 : q = 16
      · -- the value is left: a leaf of the key made of the terminator alone
        rw [if_neg (not_not.mpr hq16)]
        subst hq16
        obtain ⟨w, hw⟩ : ∃ w, Function.update cs i c' 16 = .value w := by
          rcases hok'' 16 with h | ⟨-, h⟩ | ⟨h, -⟩
          · exact absurd h hq
          · exact isValue_iff.mp h
          · exact absurd rfl h
        refine ⟨true, _, rfl, ?_, by simp, by simp, fun k => ?_⟩
        · rw [hw]
          exact (wf_short_iff.mpr (Or.inl ⟨rfl, isKey_term⟩)).wfRoot
        · rw [← hlook' k, hlookq k]
          rfl
      · rw [if_pos hq16]
        have hwq : (Function.update cs i c' q).Wf := by
          rcases hok'' q with h | ⟨h, -⟩ | ⟨-, h⟩
          · exact absurd h hq
          · exact absurd h hq16
          · exact h
        have hbq : IsNibbles [Fin.toByte q] := isNibbles_cons.mpr ⟨toByte_lt_sixteen hq16, isNibbles_nil⟩
        rw [resolve_of_wf dbNode hwq]
        generalize Function.update cs i c' q = cq at hwq hlookq ⊢
        cases cq with
        | short ckey cval cf =>
          -- the child's short node is merged into the new one
          refine ⟨true, _, rfl, (wf_short_append hbq hwq newFlag).wfRoot, by simp, by simp,
            fun k => ?_⟩
          show (short ([Fin.toByte q] ++ ckey) cval cf).lookup k = _
          rw [← lookup_short_short, ← hlookq k, hlook' k]
        | full cs₂ f₂ =>
          refine ⟨true, _, rfl, (wf_short_iff.mpr (Or.inr ⟨rfl, by simp, hbq, hwq⟩)).wfRoot,
            by simp, by simp, fun k => ?_⟩
          rw [← hlook' k, hlookq k]
          rfl
        | nil => exact absurd hwq (by simp)
        | hash _ => exact absurd hwq (by simp)
        | value _ => exact absurd hwq (by simp)
    · -- two or more are left: the full node stays
      rw [hl] at hrp
      simp only [hrp]
      rw [dif_neg (by decide)]
      exact ⟨true, _, rfl, (wf_full_iff.mpr ⟨by rw [hl]; simp, hok''⟩).wfRoot, by simp, by simp,
        lookup_full_update f newFlag hlook⟩

end Cases

/-! ## Deletion -/

/-- `delete` of a HEX key from a canonical trie with no hash node in it succeeds with any
bound longer than the key, and gives the root of a canonical trie that holds nothing at the
key and what the trie held at every other key. -/
theorem delete_spec : ∀ fuel, DeleteSpec dbNode fuel
  | 0 => fun _ _ _ _ _ hf => absurd hf (Nat.not_lt_zero _)
  | fuel + 1 => by
    intro n pfx key hn hkey hf
    rcases hn with rfl | hn
    · -- nothing to delete from an empty trie
      exact ⟨false, .nil, rfl, deletePost_self wfRoot_nil rfl⟩
    cases n with
    | short nkey c f => exact delete_short_spec dbNode (delete_spec fuel) hn hkey hf
    | full cs f => exact delete_full_spec dbNode (delete_spec fuel) hn hkey hf
    | nil => exact absurd hn (by simp)
    | hash _ => exact absurd hn (by simp)
    | value _ => exact absurd hn (by simp)

end GoMetadium.Trie
