import Mathlib

set_option autoImplicit false

/-! # Sums over association lists

A map with finitely many keys is an `AList`, and a quantity it holds is the sum of a function
over its entries. These are what inserting, updating and erasing a key do to such a sum, to
the number of keys, and to the set of keys whose entry has a property, which a sum of ones
counts (`sumBy_ite_eq_card`). Nothing here mentions the program.
-/

namespace AList

variable {α : Type} [DecidableEq α] {β : α → Type}

/-- The sum of `f` over the entries of `s`. -/
def sumBy (f : (a : α) → β a → Int) (s : AList β) : Int :=
  (s.entries.map fun e => f e.1 e.2).sum

/-- Erasing a key from a list without repeated keys takes its entry out of a sum, by induction
on the list. -/
theorem sum_kerase (g : Sigma β → Int) {a : α} {b : β a} :
    ∀ {l : List (Sigma β)}, l.NodupKeys → l.dlookup a = some b →
      ((l.kerase a).map g).sum = (l.map g).sum - g ⟨a, b⟩
  | [], _, h => by simp at h
  | ⟨a', b'⟩ :: l, hnd, h => by
    by_cases ha : a = a'
    · -- the entry itself
      subst ha
      rw [List.dlookup_cons_eq, Option.some.injEq] at h
      subst h
      rw [List.kerase_cons_eq (s := ⟨a, b'⟩) rfl]
      simp
    · rw [List.kerase_cons_ne ha, List.map_cons, List.sum_cons, List.map_cons, List.sum_cons,
        sum_kerase g (List.nodupKeys_cons.mp hnd).2 (by rwa [List.dlookup_cons_ne _ _ ha] at h)]
      ring

variable {f : (a : α) → β a → Int} {s : AList β} {a : α}

theorem sumBy_erase {b : β a} (h : s.lookup a = some b) :
    (s.erase a).sumBy f = s.sumBy f - f a b :=
  sum_kerase (fun e => f e.1 e.2) s.nodupKeys h

theorem sumBy_erase_of_notMem (h : a ∉ s) : (s.erase a).sumBy f = s.sumBy f := by
  have he : (s.erase a).entries = s.entries := List.kerase_of_notMem_keys (mem_keys.not.mp h)
  unfold sumBy
  rw [he]

/-- An insert puts the new entry in place of the old one. -/
theorem sumBy_insert (b : β a) : (s.insert a b).sumBy f = f a b + (s.erase a).sumBy f := by
  unfold sumBy
  rw [entries_insert, List.map_cons, List.sum_cons]
  rfl

/-- Updating a key changes the sum by the change of its entry. -/
theorem sumBy_update {b₀ : β a} (h : s.lookup a = some b₀) (b : β a) :
    (s.insert a b).sumBy f = s.sumBy f - f a b₀ + f a b := by
  rw [sumBy_insert, sumBy_erase h]
  ring

theorem sumBy_insert_of_notMem (h : a ∉ s) (b : β a) :
    (s.insert a b).sumBy f = f a b + s.sumBy f := by
  rw [sumBy_insert, sumBy_erase_of_notMem h]

/-! ## Sums that read part of a value

For a map whose values are of one type, a sum that reads only `p` of each value is the same over
two maps whose lookups agree on `p`: the two lists of keys and summands are permutations of each
other. -/

section Congr

variable {γ δ : Type} {g : α → γ → Int}

theorem mem_summands_iff (s : AList fun _ : α => γ) (a : α) (y : Int) :
    (a, y) ∈ s.entries.map (fun e => (e.1, g e.1 e.2)) ↔ ∃ b, s.lookup a = some b ∧ g a b = y := by
  constructor
  · rintro h
    obtain ⟨⟨a', b⟩, hmem, heq⟩ := List.mem_map.mp h
    rw [Prod.mk.injEq] at heq
    obtain ⟨rfl, rfl⟩ := heq
    exact ⟨b, mem_lookup_iff.mpr hmem, rfl⟩
  · rintro ⟨b, hb, rfl⟩
    exact List.mem_map.mpr ⟨⟨a, b⟩, mem_lookup_iff.mp hb, rfl⟩

omit [DecidableEq α] in
theorem nodup_summands (s : AList fun _ : α => γ) :
    (s.entries.map (fun e => (e.1, g e.1 e.2))).Nodup := by
  apply List.Nodup.of_map Prod.fst
  rw [List.map_map]
  exact s.nodupKeys

/-- A sum that reads only `p` of each value agrees on maps whose lookups agree on `p`. -/
theorem sumBy_congr (p : γ → δ) (hg : ∀ a b b', p b = p b' → g a b = g a b')
    {s t : AList fun _ : α => γ} (h : ∀ a, (s.lookup a).map p = (t.lookup a).map p) :
    s.sumBy g = t.sumBy g := by
  have hmem : ∀ a y, (∃ b, s.lookup a = some b ∧ g a b = y) → ∃ b', t.lookup a = some b' ∧ g a b' = y := by
    rintro a y ⟨b, hb, rfl⟩
    have ht := h a
    rw [hb, Option.map_some] at ht
    obtain ⟨b', hb', hp⟩ := Option.map_eq_some_iff.mp ht.symm
    exact ⟨b', hb', (hg a b b' hp.symm).symm⟩
  have hmem' : ∀ a y, (∃ b', t.lookup a = some b' ∧ g a b' = y) → ∃ b, s.lookup a = some b ∧ g a b = y := by
    rintro a y ⟨b', hb', rfl⟩
    have hs := h a
    rw [hb', Option.map_some] at hs
    obtain ⟨b, hb, hp⟩ := Option.map_eq_some_iff.mp hs
    exact ⟨b, hb, hg a b b' hp⟩
  have hperm : (s.entries.map fun e => (e.1, g e.1 e.2)).Perm (t.entries.map fun e => (e.1, g e.1 e.2)) := by
    rw [List.perm_ext_iff_of_nodup (nodup_summands s) (nodup_summands t)]
    rintro ⟨a, y⟩
    rw [mem_summands_iff, mem_summands_iff]
    exact ⟨hmem a y, hmem' a y⟩
  have hsum : ∀ u : AList fun _ : α => γ,
      u.sumBy g = ((u.entries.map fun e => (e.1, g e.1 e.2)).map Prod.snd).sum := by
    intro u
    rw [List.map_map]
    rfl
  rw [hsum s, hsum t]
  exact (hperm.map Prod.snd).sum_eq

end Congr

/-! ## The number of keys -/

theorem length_keys_insert_of_mem (h : a ∈ s) (b : β a) :
    (s.insert a b).keys.length = s.keys.length := by
  rw [keys_insert, List.length_cons, List.length_erase_of_mem (mem_keys.mp h)]
  have : 0 < s.keys.length := List.length_pos_of_mem (mem_keys.mp h)
  omega

theorem length_keys_insert_of_notMem (h : a ∉ s) (b : β a) :
    (s.insert a b).keys.length = s.keys.length + 1 := by
  rw [keys_insert, List.length_cons, List.erase_of_not_mem (mem_keys.not.mp h)]

theorem keys_insert_of_notMem (h : a ∉ s) (b : β a) : (s.insert a b).keys = a :: s.keys := by
  rw [keys_insert, List.erase_of_not_mem (mem_keys.not.mp h)]

/-- A list that is the keys up to order, less one key, is the keys after erasing it. -/
theorem perm_keys_erase {l : List α} (h : (a :: l).Perm s.keys) : l.Perm (s.erase a).keys := by
  rw [keys_erase]
  simpa using h.erase a

/-! ## The keys whose entry has a property

A sum of ones over the entries with a property counts the keys that have it, as a `Finset`;
inserting a new key, updating one and erasing one change that set as expected. -/

section KeysWhere

variable (p : (a : α) → β a → Bool)

/-- The keys of `s` whose entry satisfies `p`. -/
def keysWhere (s : AList β) : Finset α := s.keys.toFinset.filter fun a => (s.lookup a).any (p a)

variable {p} {s : AList β} {a : α}

theorem mem_keysWhere : a ∈ s.keysWhere p ↔ ∃ b, s.lookup a = some b ∧ p a b = true := by
  unfold keysWhere
  rw [Finset.mem_filter, List.mem_toFinset, ← mem_keys, ← lookup_isSome]
  cases s.lookup a <;> simp

theorem mem_of_mem_keysWhere (h : a ∈ s.keysWhere p) : a ∈ s := by
  obtain ⟨_, hb, _⟩ := mem_keysWhere.mp h
  exact lookup_isSome.mp (Option.isSome_of_eq_some hb)

theorem keysWhere_empty : (∅ : AList β).keysWhere p = ∅ := rfl

/-- A new key joins the set when its entry has the property. -/
theorem keysWhere_insert_of_notMem (h : a ∉ s) (b : β a) :
    (s.insert a b).keysWhere p =
      if p a b then Insert.insert a (s.keysWhere p) else s.keysWhere p := by
  ext x
  by_cases hx : x = a
  · subst hx
    have hn : x ∉ s.keysWhere p := fun hm => h (mem_of_mem_keysWhere hm)
    cases hp : p x b <;> simp [mem_keysWhere, hp, hn]
  · split <;> simp [mem_keysWhere, lookup_insert_ne hx, hx]

/-- An update that keeps the property keeps the set. -/
theorem keysWhere_insert_of_lookup {b₀ : β a} (h : s.lookup a = some b₀) (b : β a)
    (hp : p a b = p a b₀) : (s.insert a b).keysWhere p = s.keysWhere p := by
  ext x
  by_cases hx : x = a
  · subst hx
    simp [mem_keysWhere, h, hp]
  · simp [mem_keysWhere, lookup_insert_ne hx]

theorem keysWhere_erase_subset : (s.erase a).keysWhere p ⊆ s.keysWhere p := by
  intro x hx
  obtain ⟨b, hb, hp⟩ := mem_keysWhere.mp hx
  by_cases hxa : x = a
  · subst hxa
    simp at hb
  · rw [lookup_erase_ne hxa] at hb
    exact mem_keysWhere.mpr ⟨b, hb, hp⟩

/-- **A sum of ones over the entries with `p` is the number of keys with `p`**, by induction on
the map. -/
theorem sumBy_ite_eq_card (s : AList β) :
    s.sumBy (fun a b => if p a b then 1 else 0) = (s.keysWhere p).card := by
  induction s using insertRec with
  | H0 => rfl
  | IH a b s ha ih =>
    have hn : a ∉ s.keysWhere p := fun hm => ha (mem_of_mem_keysWhere hm)
    rw [sumBy_insert_of_notMem ha, ih, keysWhere_insert_of_notMem ha]
    cases p a b <;> simp [Finset.card_insert_of_notMem hn]; ring

end KeysWhere

end AList
