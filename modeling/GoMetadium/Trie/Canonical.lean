import GoMetadium.Trie.Shape

set_option autoImplicit false

/-! # A canonical trie is determined by what it holds

Two canonical tries that hold the same value at every key are the same tree, up to the flags
their nodes carry (`eraseFlags_eq_of_lookup_eq`). This is why the root hash of a trie depends
on its contents alone, whatever sequence of insertions and deletions built it: the hash is
computed from the tree without its flags.

The three kinds of canonical node are told apart by their keys: a leaf holds one key, an
extension holds two keys that part after its key, and a full node holds two keys that part at
their first byte.
-/

namespace GoMetadium.Trie

namespace Node

/-- The node with the flags of all its nodes cleared: its shape alone. -/
def eraseFlags : Node → Node
  | .full cs _ => .full (fun i => eraseFlags (cs i)) ⟨none, false⟩
  | .short k c _ => .short k (eraseFlags c) ⟨none, false⟩
  | .nil => .nil
  | .hash h => .hash h
  | .value v => .value v

/-- The node holds two keys that part at their first byte. -/
def Branches (n : Node) : Prop :=
  ∃ b₁ r₁ v₁ b₂ r₂ v₂, b₁ ≠ b₂ ∧ n.lookup (b₁ :: r₁) = some v₁ ∧ n.lookup (b₂ :: r₂) = some v₂

/-! ## What the three kinds of node hold -/

/-- A canonical node holds something. -/
theorem Wf.exists_lookup : ∀ {n : Node}, n.Wf → ∃ k v, n.lookup k = some v
  | .short k c f, hn => by
    rcases wf_short_iff.mp hn with ⟨hc, -⟩ | ⟨-, -, -, hw⟩
    · obtain ⟨w, rfl⟩ := isValue_iff.mp hc
      exact ⟨k, w, by simp [lookup_leaf]⟩
    · obtain ⟨r, v, h⟩ := Wf.exists_lookup hw
      exact ⟨k ++ r, v, by rw [lookup_short_append]; exact h⟩
  | .full cs f, hn => by
    obtain ⟨hlive, hok⟩ := wf_full_iff.mp hn
    obtain ⟨j, hj⟩ : ∃ j, j ∈ liveChildren cs := List.exists_mem_of_length_pos (by omega)
    have hne := mem_liveChildren.mp hj
    rcases hok j with h | ⟨-, h⟩ | ⟨-, hw⟩
    · exact absurd h hne
    · obtain ⟨w, hw⟩ := isValue_iff.mp h
      exact ⟨[Fin.toByte j], w, by rw [lookup_full_cons, hw]; rfl⟩
    · obtain ⟨r, v, h⟩ := Wf.exists_lookup hw
      exact ⟨Fin.toByte j :: r, v, by rw [lookup_full_cons]; exact h⟩
  | .nil, hn => absurd hn id
  | .hash _, hn => absurd hn id
  | .value _, hn => absurd hn id

/-- A live child of a canonical full node holds something. -/
theorem ChildOk.exists_lookup {i : Fin 17} {c : Node} (hc : ChildOk i c) (hne : c ≠ .nil) :
    ∃ k v, c.lookup k = some v := by
  rcases hc with h | ⟨-, h⟩ | ⟨-, hw⟩
  · exact absurd h hne
  · obtain ⟨w, rfl⟩ := isValue_iff.mp h
    exact ⟨[], w, rfl⟩
  · exact hw.exists_lookup

/-- A canonical full node holds two keys that part at their first byte. -/
theorem Wf.full_branches {cs : Fin 17 → Node} {f : NodeFlag} (hn : (full cs f).Wf) :
    (full cs f).Branches := by
  obtain ⟨hlive, hok⟩ := wf_full_iff.mp hn
  obtain ⟨j₁, j₂, rest, hl⟩ : ∃ j₁ j₂ rest, liveChildren cs = j₁ :: j₂ :: rest := by
    match hl : liveChildren cs, hlive with
    | j₁ :: j₂ :: rest, _ => exact ⟨j₁, j₂, rest, rfl⟩
  have hnd := liveChildren_nodup cs
  rw [hl] at hnd
  have h₁₂ : j₁ ≠ j₂ := fun h => (List.nodup_cons.mp hnd).1 (h ▸ List.mem_cons_self)
  have hm₁ : cs j₁ ≠ .nil := mem_liveChildren.mp (by rw [hl]; exact List.mem_cons_self)
  have hm₂ : cs j₂ ≠ .nil := mem_liveChildren.mp (by rw [hl]; simp)
  obtain ⟨r₁, v₁, h₁⟩ := (hok j₁).exists_lookup hm₁
  obtain ⟨r₂, v₂, h₂⟩ := (hok j₂).exists_lookup hm₂
  refine ⟨Fin.toByte j₁, r₁, v₁, Fin.toByte j₂, r₂, v₂, fun h => h₁₂ (toByte_injective h), ?_, ?_⟩
  · rwa [lookup_full_cons]
  · rwa [lookup_full_cons]

/-- A leaf holds its key alone. -/
theorem lookup_leaf_eq_some {k w q v : List UInt8} {f : NodeFlag}
    (h : (short k (value w) f).lookup q = some v) : q = k ∧ v = w := by
  rw [lookup_leaf] at h
  split at h
  · exact ⟨‹_›, (Option.some_inj.mp h).symm⟩
  · cases h

/-- Every key a short node holds starts with its key. -/
theorem prefix_of_lookup_short {k q : List UInt8} {c : Node} {f : NodeFlag} {v : List UInt8}
    (h : (short k c f).lookup q = some v) : k <+: q := by
  by_contra hp
  rw [lookup_short_of_mismatch _ _ hp] at h
  cases h

/-- An extension holds two keys that part after its key. -/
theorem Wf.ext_branches {k : List UInt8} {c : Node} {f : NodeFlag} (hc : c.isFull) (hw : c.Wf) :
    ∃ b₁ r₁ v₁ b₂ r₂ v₂, b₁ ≠ b₂ ∧ (short k c f).lookup (k ++ b₁ :: r₁) = some v₁ ∧
      (short k c f).lookup (k ++ b₂ :: r₂) = some v₂ := by
  obtain ⟨cs, cf, rfl⟩ := isFull_iff.mp hc
  obtain ⟨b₁, r₁, v₁, b₂, r₂, v₂, hb, h₁, h₂⟩ := hw.full_branches
  exact ⟨b₁, r₁, v₁, b₂, r₂, v₂, hb, by rwa [lookup_short_append], by rwa [lookup_short_append]⟩

/-! ## Telling the kinds apart -/

section Kinds

variable {n m : Node}

/-- A node holding two keys that part after `k` does not hold what a leaf holds. -/
theorem lookup_ne_leaf {k k' w : List UInt8} {f : NodeFlag} {b₁ b₂ : UInt8} {r₁ r₂ v₁ v₂ : List UInt8}
    (hb : b₁ ≠ b₂) (h₁ : n.lookup (k ++ b₁ :: r₁) = some v₁) (h₂ : n.lookup (k ++ b₂ :: r₂) = some v₂) :
    ¬ ∀ q, n.lookup q = (short k' (value w) f).lookup q := by
  intro h
  rw [h] at h₁ h₂
  have e₁ := (lookup_leaf_eq_some h₁).1
  have e₂ := (lookup_leaf_eq_some h₂).1
  rw [← e₂] at e₁
  exact hb (List.cons.inj (List.append_cancel_left e₁)).1

/-- A full node does not hold what an extension holds: the keys of the extension all start
with the first byte of its key. -/
theorem lookup_full_ne_ext {cs : Fin 17 → Node} {f : NodeFlag} (hn : (full cs f).Wf)
    {k : List UInt8} (hk : k ≠ []) (c : Node) (f' : NodeFlag) :
    ¬ ∀ q, (full cs f).lookup q = (short k c f').lookup q := by
  intro h
  obtain ⟨b₁, r₁, v₁, b₂, r₂, v₂, hb, h₁, h₂⟩ := hn.full_branches
  rw [h] at h₁ h₂
  obtain ⟨y, k', rfl⟩ := List.exists_cons_of_ne_nil hk
  have p₁ := List.cons_prefix_cons.mp (prefix_of_lookup_short h₁)
  have p₂ := List.cons_prefix_cons.mp (prefix_of_lookup_short h₂)
  exact hb (p₁.1.symm.trans p₂.1)

/-- Two keys that part after `k`, both with the prefix `k'`: then `k'` is a prefix of `k`. -/
theorem prefix_of_branches {k k' : List UInt8} {b₁ b₂ : UInt8} {r₁ r₂ : List UInt8} (hb : b₁ ≠ b₂)
    (h₁ : k' <+: k ++ b₁ :: r₁) (h₂ : k' <+: k ++ b₂ :: r₂) : k' <+: k := by
  rcases List.prefix_or_prefix_of_prefix h₁ (List.prefix_append k (b₁ :: r₁)) with h | h
  · exact h
  · obtain ⟨s, rfl⟩ := h
    cases s with
    | nil => simp
    | cons y s =>
      have e₁ := (List.prefix_append_right_inj k).mp h₁
      have e₂ := (List.prefix_append_right_inj k).mp h₂
      exact absurd ((List.cons_prefix_cons.mp e₁).1.symm.trans (List.cons_prefix_cons.mp e₂).1) hb

end Kinds

/-! ## Uniqueness -/

/-- Two children at the same index of canonical full nodes that hold the same values are the
same up to flags, given that for canonical children. -/
theorem eraseFlags_child_eq {i : Fin 17} {c c' : Node} (hc : ChildOk i c) (hc' : ChildOk i c')
    (h : ∀ k, c.lookup k = c'.lookup k)
    (ih : c.Wf → c'.Wf → c.eraseFlags = c'.eraseFlags) : c.eraseFlags = c'.eraseFlags := by
  by_cases hn : c = .nil
  · -- a nil child against a live one: the live one holds something
    by_cases hn' : c' = .nil
    · rw [hn, hn']
    · obtain ⟨k, v, hk⟩ := hc'.exists_lookup hn'
      rw [← h, hn] at hk
      cases hk
  · have hn' : c' ≠ .nil := by
      rintro rfl
      obtain ⟨k, v, hk⟩ := hc.exists_lookup hn
      rw [h] at hk
      cases hk
    rcases hc with h₀ | ⟨rfl, hv⟩ | ⟨hi, hw⟩
    · exact absurd h₀ hn
    · -- the 17th children: two values, the same at the empty key
      obtain ⟨w, rfl⟩ := isValue_iff.mp hv
      rcases hc' with h₀ | ⟨-, hv'⟩ | ⟨h16, -⟩
      · exact absurd h₀ hn'
      · obtain ⟨w', rfl⟩ := isValue_iff.mp hv'
        have := h []
        simp only [lookup_value_nil, Option.some_inj] at this
        rw [this]
      · exact absurd rfl h16
    · rcases hc' with h₀ | ⟨h16, -⟩ | ⟨-, hw'⟩
      · exact absurd h₀ hn'
      · exact absurd h16 hi
      · exact ih hw hw'

/-- Two canonical tries that hold the same value at every key are equal up to flags. -/
theorem eraseFlags_eq_of_lookup_eq : ∀ {n m : Node}, n.Wf → m.Wf →
    (∀ k, n.lookup k = m.lookup k) → n.eraseFlags = m.eraseFlags
  | .short k c f, .short k' c' f', hn, hm, h => by
    rcases wf_short_iff.mp hn with ⟨hc, hk⟩ | ⟨hc, hk0, -, hw⟩ <;>
      rcases wf_short_iff.mp hm with ⟨hc', hk'⟩ | ⟨hc', hk0', -, hw'⟩
    · -- two leaves: the same key and value
      obtain ⟨w, rfl⟩ := isValue_iff.mp hc
      obtain ⟨w', rfl⟩ := isValue_iff.mp hc'
      have hl := h k
      rw [lookup_leaf, if_pos rfl] at hl
      obtain ⟨rfl, rfl⟩ := lookup_leaf_eq_some hl.symm
      rfl
    · obtain ⟨w, rfl⟩ := isValue_iff.mp hc
      obtain ⟨b₁, r₁, v₁, b₂, r₂, v₂, hb, h₁, h₂⟩ := Wf.ext_branches (k := k') (f := f') hc' hw'
      exact absurd (fun q => (h q).symm) (lookup_ne_leaf hb h₁ h₂)
    · obtain ⟨w', rfl⟩ := isValue_iff.mp hc'
      obtain ⟨b₁, r₁, v₁, b₂, r₂, v₂, hb, h₁, h₂⟩ := Wf.ext_branches (k := k) (f := f) hc hw
      exact absurd h (lookup_ne_leaf hb h₁ h₂)
    · -- two extensions: the keys are prefixes of each other, and the full nodes below agree
      obtain ⟨b₁, r₁, v₁, b₂, r₂, v₂, hb, h₁, h₂⟩ := Wf.ext_branches (k := k) (f := f) hc hw
      obtain ⟨b₁', r₁', v₁', b₂', r₂', v₂', hb', h₁', h₂'⟩ :=
        Wf.ext_branches (k := k') (f := f') hc' hw'
      have hkk' : k' <+: k := prefix_of_branches hb
        (prefix_of_lookup_short (by rw [← h]; exact h₁)) (prefix_of_lookup_short (by rw [← h]; exact h₂))
      have hk'k : k <+: k' := prefix_of_branches hb'
        (prefix_of_lookup_short (by rw [h]; exact h₁')) (prefix_of_lookup_short (by rw [h]; exact h₂'))
      obtain rfl := hkk'.eq_of_length (Nat.le_antisymm hkk'.length_le hk'k.length_le)
      have hcc : ∀ r, c.lookup r = c'.lookup r := fun r => by
        have := h (k' ++ r)
        rwa [lookup_short_append, lookup_short_append] at this
      simp only [eraseFlags, eraseFlags_eq_of_lookup_eq hw hw' hcc]
  | .short k c f, .full cs' f', hn, hm, h => by
    rcases wf_short_iff.mp hn with ⟨hc, -⟩ | ⟨-, hk0, -, -⟩
    · obtain ⟨w, rfl⟩ := isValue_iff.mp hc
      obtain ⟨b₁, r₁, v₁, b₂, r₂, v₂, hb, h₁, h₂⟩ := hm.full_branches
      exact absurd (fun q => (h q).symm) (lookup_ne_leaf (k := []) hb h₁ h₂)
    · exact absurd (fun q => (h q).symm) (lookup_full_ne_ext hm hk0 c f)
  | .full cs f, .short k' c' f', hn, hm, h => by
    rcases wf_short_iff.mp hm with ⟨hc', -⟩ | ⟨-, hk0', -, -⟩
    · obtain ⟨w, rfl⟩ := isValue_iff.mp hc'
      obtain ⟨b₁, r₁, v₁, b₂, r₂, v₂, hb, h₁, h₂⟩ := hn.full_branches
      exact absurd h (lookup_ne_leaf (k := []) hb h₁ h₂)
    · exact absurd h (lookup_full_ne_ext hn hk0' c' f')
  | .full cs f, .full cs' f', hn, hm, h => by
    -- two full nodes: child by child
    have hok := (wf_full_iff.mp hn).2
    have hok' := (wf_full_iff.mp hm).2
    have hcs : ∀ i, (cs i).eraseFlags = (cs' i).eraseFlags := fun i =>
      eraseFlags_child_eq (hok i) (hok' i)
        (fun r => by have := h (Fin.toByte i :: r); rwa [lookup_full_cons, lookup_full_cons] at this)
        (fun hw hw' => eraseFlags_eq_of_lookup_eq hw hw'
          (fun r => by have := h (Fin.toByte i :: r); rwa [lookup_full_cons, lookup_full_cons] at this))
    simp only [eraseFlags, hcs]
  | .nil, _, hn, _, _ => absurd hn id
  | .hash _, _, hn, _, _ => absurd hn id
  | .value _, _, hn, _, _ => absurd hn id
  | .short _ _ _, .nil, _, hm, _ => absurd hm id
  | .short _ _ _, .hash _, _, hm, _ => absurd hm id
  | .short _ _ _, .value _, _, hm, _ => absurd hm id
  | .full _ _, .nil, _, hm, _ => absurd hm id
  | .full _ _, .hash _, _, hm, _ => absurd hm id
  | .full _ _, .value _, _, hm, _ => absurd hm id

/-- Two canonical roots that hold the same value at every key are equal up to flags: an empty
root holds nothing, and a canonical node holds something. -/
theorem WfRoot.eraseFlags_eq {n m : Node} (hn : n.WfRoot) (hm : m.WfRoot)
    (h : ∀ k, n.lookup k = m.lookup k) : n.eraseFlags = m.eraseFlags := by
  rcases hn with rfl | hn <;> rcases hm with rfl | hm
  · rfl
  · obtain ⟨k, v, hk⟩ := hm.exists_lookup
    rw [← h, lookup_nil] at hk
    cases hk
  · obtain ⟨k, v, hk⟩ := hn.exists_lookup
    rw [h, lookup_nil] at hk
    cases hk
  · exact eraseFlags_eq_of_lookup_eq hn hm h

end Node

end GoMetadium.Trie
