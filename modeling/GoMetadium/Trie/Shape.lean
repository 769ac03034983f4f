import GoMetadium.Trie.Trie

set_option autoImplicit false

/-! # The canonical shape of a loaded trie

A trie built by `insert` and `delete` from the empty trie has one shape for each map, and
that is what makes its root hash depend on the map alone. The shape (`Node.Wf`) is:

* a short node either holds a value under a HEX key that ends in the terminator (a leaf),
  or a full node under a nonempty key of nibbles (an extension): no short node under a short
  node, and the terminator only at the end of a leaf key;
* a full node has at least two children, a value only as its 17th child and canonical
  subtries as the others.

The root of a trie is `nil` or of this shape. This file proves that on such tries, with no
hash node in them, `insert` and `delete` keep the shape and change the map (`Node.lookup`) at
the one key they are given, and `tryGet` reads the map (`insert_spec`, `delete_spec`,
`tryGet_spec`); and that two tries of this shape with the same map are equal up to their
flags (`eraseFlags_eq_of_lookup_eq`).
-/

namespace GoMetadium.Trie

/-! ## The children of a full node -/

/-- The indices of the non-nil children, in order. -/
def liveChildren (cs : Fin 17 → Node) : List (Fin 17) :=
  (List.finRange 17).filter fun i => !(cs i).isNil

/-- One iteration of the loop of `remainingPos`. -/
def remainingStep (cs : Fin 17 → Node) (pos : Int) (i : Fin 17) : Int :=
  if pos = -2 ∨ (cs i).isNil then pos else if pos = -1 then (i.val : Int) else -2

theorem remainingPos_eq_foldl (cs : Fin 17 → Node) :
    remainingPos cs = (List.finRange 17).foldl (remainingStep cs) (-1) := rfl

/-- The loop from any state: it ends in the state it starts from if no child is left to
see; otherwise in the one child seen if it started with none and there is exactly one, and
in `-2` if not. -/
theorem foldl_remainingStep (cs : Fin 17 → Node) (l : List (Fin 17)) (s : Int) :
    l.foldl (remainingStep cs) s =
      match l.filter (fun i => !(cs i).isNil) with
      | [] => s
      | i :: rest => if s = -1 ∧ rest = [] then (i.val : Int) else -2 := by
  induction l generalizing s with
  | nil => rfl
  | cons j l ih =>
    rw [List.foldl_cons, ih, List.filter_cons]
    by_cases hj : (cs j).isNil
    · simp only [remainingStep, hj, or_true, if_true, Bool.not_true, Bool.false_eq_true, if_false]
    · simp only [hj, Bool.not_false, if_true]
      -- the child `j` is seen: the state moves to `j` from `-1`, and to `-2` otherwise
      by_cases hs2 : s = -2
      · simp only [remainingStep, hs2, true_or, if_true]
        split <;> simp
      · by_cases hs1 : s = -1
        · simp only [remainingStep, hs1, hj, if_true]
          split
          · rename_i heq
            simp [heq]
          · rename_i i rest heq
            have hj0 : (j.val : Int) ≠ -1 := by omega
            simp [hj0, heq]
        · simp only [remainingStep, hs2, hj, if_false, hs1]
          split <;> simp

/-- `remainingPos` is the only live child if there is one, `-1` if there is none, `-2` if
there are more. -/
theorem remainingPos_eq (cs : Fin 17 → Node) :
    remainingPos cs =
      match liveChildren cs with
      | [] => -1
      | [i] => (i.val : Int)
      | _ :: _ :: _ => -2 := by
  rw [remainingPos_eq_foldl, foldl_remainingStep]
  unfold liveChildren
  split
  · rename_i h
    simp [h]
  · rename_i i rest h
    rw [h]
    cases rest <;> simp

theorem mem_liveChildren {cs : Fin 17 → Node} {i : Fin 17} : i ∈ liveChildren cs ↔ cs i ≠ .nil := by
  simp only [liveChildren, List.mem_filter, List.mem_finRange, true_and, Bool.not_eq_true']
  cases cs i <;> simp [Node.isNil]

theorem liveChildren_nodup (cs : Fin 17 → Node) : (liveChildren cs).Nodup :=
  (List.nodup_finRange 17).filter _

/-- Two distinct live children make two. -/
theorem two_le_length_liveChildren {cs : Fin 17 → Node} {i j : Fin 17} (hij : i ≠ j)
    (hi : cs i ≠ .nil) (hj : cs j ≠ .nil) : 2 ≤ (liveChildren cs).length := by
  have hsub : [i, j] ⊆ liveChildren cs := by
    intro x hx
    simp only [List.mem_cons, List.not_mem_nil, or_false] at hx
    rcases hx with rfl | rfl <;> exact mem_liveChildren.mpr ‹_›
  exact (List.Nodup.length_le_of_subset (by simp [hij]) hsub)

/-- Setting a child to a non-nil node loses no live child. -/
theorem length_liveChildren_update_le (cs : Fin 17 → Node) (i : Fin 17) {c : Node}
    (hc : c ≠ .nil) : (liveChildren cs).length ≤ (liveChildren (Function.update cs i c)).length := by
  apply List.Sublist.length_le
  apply List.monotone_filter_right
  intro j hj
  by_cases hji : j = i
  · subst hji
    cases c <;> simp_all [Node.isNil]
  · rwa [Function.update_of_ne hji]

/-! ## Canonical nodes -/

namespace Node

/-- Whether the node is a `*fullNode`. -/
def isFull : Node → Bool
  | .full .. => true
  | _ => false

/-- The canonical shape of a nonempty trie with no hash node in it. -/
def Wf : Node → Prop
  | .short k c _ => (c.isValue ∧ IsKey k) ∨ (c.isFull ∧ k ≠ [] ∧ IsNibbles k ∧ Wf c)
  | .full cs _ =>
    2 ≤ (liveChildren cs).length ∧ (∀ i : Fin 17, i ≠ 16 → cs i = .nil ∨ Wf (cs i)) ∧
      (cs 16 = .nil ∨ (cs 16).isValue)
  | _ => False

/-- The root of a trie: empty, or a canonical node. -/
def WfRoot (n : Node) : Prop := n = .nil ∨ n.Wf

/-- What may stand as the child `i` of a canonical full node: nothing, a value as the 17th
child, a canonical node as any other. -/
def ChildOk (i : Fin 17) (c : Node) : Prop := c = .nil ∨ (i = 16 ∧ c.isValue) ∨ (i ≠ 16 ∧ c.Wf)

theorem isValue_iff {c : Node} : c.isValue ↔ ∃ w, c = .value w := by
  cases c <;> simp [isValue]

theorem isFull_iff {c : Node} : c.isFull ↔ ∃ cs f, c = .full cs f := by
  cases c <;> simp [isFull]

theorem wf_short_iff {k : List UInt8} {c : Node} {f : NodeFlag} :
    (short k c f).Wf ↔ (c.isValue ∧ IsKey k) ∨ (c.isFull ∧ k ≠ [] ∧ IsNibbles k ∧ c.Wf) := by
  rw [Wf]

theorem wf_full_iff {cs : Fin 17 → Node} {f : NodeFlag} :
    (full cs f).Wf ↔ 2 ≤ (liveChildren cs).length ∧ ∀ i, ChildOk i (cs i) := by
  rw [Wf]
  refine and_congr_right fun _ => ⟨fun ⟨hc, h16⟩ i => ?_, fun h => ⟨fun i hi => ?_, ?_⟩⟩
  · by_cases hi : i = 16
    · subst hi
      rcases h16 with h | h
      · exact Or.inl h
      · exact Or.inr (Or.inl ⟨rfl, h⟩)
    · rcases hc i hi with h | h
      · exact Or.inl h
      · exact Or.inr (Or.inr ⟨hi, h⟩)
  · rcases h i with h | ⟨h16, -⟩ | ⟨-, h⟩
    · exact Or.inl h
    · exact absurd h16 hi
    · exact Or.inr h
  · rcases h 16 with h | ⟨-, h⟩ | ⟨h16, -⟩
    · exact Or.inl h
    · exact Or.inr h
    · exact absurd rfl h16

@[simp] theorem not_wf_nil : ¬ Node.nil.Wf := id

@[simp] theorem not_wf_value (v : List UInt8) : ¬ (value v).Wf := id

@[simp] theorem not_wf_hash (h : List UInt8) : ¬ (hash h).Wf := id

theorem Wf.ne_nil {n : Node} (h : n.Wf) : n ≠ .nil := by
  rintro rfl
  exact h

theorem Wf.wfRoot {n : Node} (h : n.Wf) : n.WfRoot := Or.inr h

theorem wfRoot_nil : Node.nil.WfRoot := Or.inl rfl

/-- A leaf holds its value at its key and nothing anywhere else. -/
theorem lookup_leaf (k w : List UInt8) (f : NodeFlag) (q : List UInt8) :
    (short k (value w) f).lookup q = if q = k then some w else none := by
  by_cases h : k <+: q
  · obtain ⟨r, rfl⟩ := h
    rw [lookup_short_append]
    cases r <;> simp
  · rw [lookup_short_of_mismatch _ _ h, if_neg]
    rintro rfl
    exact h (List.prefix_refl q)

/-- A short node under `p ++ s`, read at `p ++ k`, is the short node under `s` read at `k`. -/
theorem lookup_short_append_left (p s : List UInt8) (c : Node) (f : NodeFlag) (k : List UInt8) :
    (short (p ++ s) c f).lookup (p ++ k) = (short s c f).lookup k := by
  simp only [lookup_short, List.prefix_append_right_inj, List.length_append, List.drop_append,
    List.drop_eq_nil_of_le (Nat.le_add_right _ _), List.nil_append]
  simp

/-- A short node under a short node holds what one short node of the joined keys holds. -/
theorem lookup_short_short (p s : List UInt8) (c : Node) (f f' : NodeFlag) (k : List UInt8) :
    (short p (short s c f) f').lookup k = (short (p ++ s) c f).lookup k := by
  by_cases hp : p <+: k
  · obtain ⟨k', rfl⟩ := hp
    rw [lookup_short_append, lookup_short_append_left]
  · rw [lookup_short_of_mismatch _ _ hp, lookup_short_of_mismatch]
    exact fun h => hp ((List.prefix_append p s).trans h)

/-- A short node holds nothing under a key that leaves its key at the first byte. -/
theorem lookup_short_cons_of_ne {y z : UInt8} (hzy : z ≠ y) (b : List UInt8) (c : Node)
    (f : NodeFlag) (q : List UInt8) : (short (y :: b) c f).lookup (z :: q) = none := by
  apply lookup_short_of_mismatch
  rw [List.cons_prefix_cons]
  exact fun h => hzy h.1.symm

/-- The child a HEX key `b :: rest` reaches in a canonical full node: nothing, the value at
the end of the key, or a canonical node with a HEX key left to read. -/
theorem ChildOk.cases_key {i : Fin 17} {c : Node} (hc : ChildOk i c) {b : UInt8}
    (hb : nibIndex b = some i) {rest : List UInt8} (hkey : IsKey (b :: rest)) :
    c = .nil ∨ (∃ w, c = .value w ∧ rest = []) ∨ (c.Wf ∧ i ≠ 16 ∧ IsKey rest) := by
  rcases hc with rfl | ⟨rfl, hv⟩ | ⟨hi, hw⟩
  · exact Or.inl rfl
  · obtain ⟨w, rfl⟩ := isValue_iff.mp hv
    have hb16 : b = 16 := (toByte_nibIndex hb).symm
    rcases isKey_cons.mp hkey with ⟨-, hr⟩ | ⟨hlt, -⟩
    · exact Or.inr (Or.inl ⟨w, rfl, hr⟩)
    · exact absurd (hb16 ▸ hlt) (by decide)
  · have hlt : b < 16 := by
      rw [← toByte_nibIndex hb]
      exact toByte_lt_sixteen hi
    rcases isKey_cons.mp hkey with ⟨h16, -⟩ | ⟨-, hr⟩
    · exact absurd (h16 ▸ hlt) (by decide)
    · exact Or.inr (Or.inr ⟨hw, hi, hr⟩)

/-- The first byte of a HEX key selects a child. -/
theorem IsKey.nibIndex_head {b : UInt8} {rest : List UInt8} (hkey : IsKey (b :: rest)) :
    ∃ i, nibIndex b = some i := by
  rcases isKey_cons.mp hkey with ⟨rfl, -⟩ | ⟨h, -⟩
  · exact ⟨16, nibIndex_sixteen⟩
  · exact (nibIndex_lt h).imp fun _ h => h.1

end Node

/-! ## Lookups after a change -/

open Node

/-- Changing the child of a short node under `a` changes the node under its key followed
by `a`. -/
theorem lookup_short_update {nkey a : List UInt8} {o : Option (List UInt8)} {c nn : Node}
    (f f' : NodeFlag) (h : ∀ q, nn.lookup q = if q = a then o else c.lookup q) (k : List UInt8) :
    (short nkey nn f').lookup k = if k = nkey ++ a then o else (short nkey c f).lookup k := by
  by_cases hp : nkey <+: k
  · obtain ⟨r, rfl⟩ := hp
    rw [lookup_short_append, lookup_short_append, h]
    simp
  · rw [lookup_short_of_mismatch _ _ hp, lookup_short_of_mismatch _ _ hp, if_neg]
    rintro rfl
    exact hp (List.prefix_append _ _)

/-- Changing the child `i` of a full node under `rest` changes the node under the byte of
`i` followed by `rest`. -/
theorem lookup_full_update {cs : Fin 17 → Node} {i : Fin 17} {nn : Node} {rest : List UInt8}
    {o : Option (List UInt8)} (f f' : NodeFlag)
    (h : ∀ q, nn.lookup q = if q = rest then o else (cs i).lookup q) (k : List UInt8) :
    (full (Function.update cs i nn) f').lookup k =
      if k = Fin.toByte i :: rest then o else (full cs f).lookup k := by
  cases k with
  | nil => simp
  | cons b q =>
    cases hb : nibIndex b with
    | none =>
      have hbi : b ≠ Fin.toByte i := by
        rintro rfl
        simp [nibIndex_toByte] at hb
      simp [lookup, hb, hbi]
    | some j =>
      obtain rfl := toByte_nibIndex hb
      rw [lookup_full_cons, lookup_full_cons]
      by_cases hji : j = i
      · subst hji
        rw [Function.update_self, h]
        simp
      · rw [Function.update_of_ne hji, if_neg]
        intro heq
        exact hji (toByte_injective (List.cons.inj heq).1)

/-! ## The nodes `insert` builds at a nil node -/

/-- What `insert` builds at a nil node: the value itself under an empty key, a short node
holding it under any other. -/
def wrapShort (key : List UInt8) (value : Node) : Node :=
  if key = [] then value else .short key value newFlag

theorem wrapShort_ne_nil (key : List UInt8) {c : Node} (hc : c ≠ .nil) : wrapShort key c ≠ .nil := by
  unfold wrapShort
  split
  · exact hc
  · exact Node.noConfusion

/-- `wrapShort` holds what a short node of the same key holds. -/
theorem lookup_wrapShort (key : List UInt8) (c : Node) (f : NodeFlag) (q : List UInt8) :
    (wrapShort key c).lookup q = (Node.short key c f).lookup q := by
  unfold wrapShort
  split
  · rename_i hk
    subst hk
    simp [Node.lookup_short]
  · rfl

/-- A canonical short node cut after `p ++ [y]`: the byte `y` selects a child of a full node,
and what is left of the short node after it may stand there. -/
theorem Wf.split_child {p r : List UInt8} {y : UInt8} {c : Node} {f : NodeFlag}
    (hn : (short (p ++ y :: r) c f).Wf) :
    ∃ i, nibIndex y = some i ∧ wrapShort r c ≠ .nil ∧ ChildOk i (wrapShort r c) := by
  have hc0 : c ≠ .nil := by
    rintro rfl
    simp [wf_short_iff, isValue, isFull] at hn
  refine (fun h => ?_) (wf_short_iff.mp hn)
  rcases h with ⟨hc, hk⟩ | ⟨hc, -, hk, hw⟩
  · -- a leaf: `y` is the terminator and ends the key, or a nibble with a HEX key after it
    rcases (isKey_append_cons.mp hk).2 with ⟨rfl, rfl⟩ | ⟨hy, hr⟩
    · exact ⟨16, nibIndex_sixteen, wrapShort_ne_nil _ hc0, Or.inr (Or.inl ⟨rfl, by simpa [wrapShort] using hc⟩)⟩
    · obtain ⟨i, hi, hi16⟩ := nibIndex_lt hy
      have hr0 := hr.ne_nil
      refine ⟨i, hi, wrapShort_ne_nil _ hc0, Or.inr (Or.inr ⟨fun h => by simp [h] at hi16, ?_⟩)⟩
      rw [wrapShort, if_neg hr0]
      exact wf_short_iff.mpr (Or.inl ⟨hc, hr⟩)
  · -- an extension: `y` is a nibble, with nibbles or nothing after it
    rw [isNibbles_append, isNibbles_cons] at hk
    obtain ⟨-, hy, hr⟩ := hk
    obtain ⟨i, hi, hi16⟩ := nibIndex_lt hy
    refine ⟨i, hi, wrapShort_ne_nil _ hc0, Or.inr (Or.inr ⟨fun h => by simp [h] at hi16, ?_⟩)⟩
    unfold wrapShort
    split
    · exact hw
    · rename_i hr0
      exact wf_short_iff.mpr (Or.inr ⟨hc, hr0, hr, hw⟩)

/-! ## Reading a canonical trie -/

section Get

variable (dbNode : List UInt8 → Option Node)

/-- The test by which `tryGet` gives up at a short node is that the node's key is not a
prefix of what is left of the key. -/
theorem tryGet_mismatch_iff (key nkey : List UInt8) (pos : Nat) :
    (key.length - pos < nkey.length ∨ nkey ≠ (key.drop pos).take nkey.length) ↔
      ¬ nkey <+: key.drop pos := by
  rw [List.prefix_iff_eq_take]
  constructor
  · rintro (h | h) heq
    · have hlen := congrArg List.length heq
      simp only [List.length_take, List.length_drop] at hlen
      omega
    · exact h heq
  · exact Or.inr

theorem nibbleAt_of_drop {key rest : List UInt8} {pos : Nat} {b : UInt8} {i : Fin 17}
    (hdrop : key.drop pos = b :: rest) (hb : nibIndex b = some i) : nibbleAt key pos = .ok i := by
  have hget : key[pos]? = some b := by
    have := congrArg (·[0]?) hdrop
    simpa using this
  simp [nibbleAt, hget, hb]

/-- `tryGet` on a canonical trie with no hash node in it succeeds with any bound longer than
what is left of the key, and reads the trie's value there; it loads nothing and returns the
node as it was. -/
theorem tryGet_spec : ∀ (fuel : Nat) (n : Node) (key : List UInt8) (pos : Nat), n.WfRoot →
    IsKey (key.drop pos) → (key.drop pos).length < fuel →
    tryGet dbNode fuel n key pos = .ok (n.lookup (key.drop pos), n, false)
  | 0, _, _, _, _, _, hf => absurd hf (Nat.not_lt_zero _)
  | fuel + 1, n, key, pos, hn, hkey, hf => by
    rcases hn with rfl | hn
    · rfl
    cases n with
    | short nkey c f =>
      rw [tryGet]
      by_cases hpre : nkey <+: key.drop pos
      · rw [if_neg (fun h => (tryGet_mismatch_iff key nkey pos).mp h hpre)]
        obtain ⟨rest, hrest⟩ := hpre
        have hdrop : key.drop (pos + nkey.length) = rest := by
          rw [← List.drop_drop, ← hrest, List.drop_left]
        rw [← hrest, lookup_short_append]
        rw [← hrest] at hkey hf
        rcases wf_short_iff.mp hn with ⟨hc, hk⟩ | ⟨-, hk0, hk, hw⟩
        · -- a leaf: its key is the rest of the key, and its value is read
          obtain ⟨w, rfl⟩ := isValue_iff.mp hc
          obtain rfl := hk.eq_of_append hkey
          have hp0 : 0 < nkey.length := List.length_pos_of_ne_nil hk.ne_nil
          obtain ⟨fuel, rfl⟩ : ∃ f, fuel = f + 1 := ⟨fuel - 1, by simp at hf; omega⟩
          rfl
        · -- an extension: the full node below reads the rest
          have hr0 : rest ≠ [] := by
            rintro rfl
            exact not_isNibbles_of_isKey (by simpa using hkey) hk
          have hlt : rest.length < fuel := by
            have : nkey.length ≠ 0 := by simpa using hk0
            simp only [List.length_append] at hf
            omega
          have ih := tryGet_spec fuel c key (pos + nkey.length) hw.wfRoot
            (hdrop ▸ (isKey_of_append hkey hr0).2) (hdrop ▸ hlt)
          rw [ih, hdrop]
          rfl
      · rw [if_pos ((tryGet_mismatch_iff key nkey pos).mpr hpre), lookup_short_of_mismatch _ _ hpre]
    | full cs f =>
      obtain ⟨b, rest, hdrop⟩ := List.exists_cons_of_ne_nil hkey.ne_nil
      rw [hdrop] at hkey hf
      obtain ⟨i, hi⟩ := IsKey.nibIndex_head hkey
      have hdrop' : key.drop (pos + 1) = rest := by
        rw [← List.drop_drop, hdrop, List.drop_one, List.tail_cons]
      have hlt : rest.length < fuel := by simpa using hf
      obtain ⟨fuel, rfl⟩ : ∃ f, fuel = f + 1 := ⟨fuel - 1, by omega⟩
      have hchild : tryGet dbNode (fuel + 1) (cs i) key (pos + 1) = .ok ((cs i).lookup rest, cs i, false) := by
        rcases ((wf_full_iff.mp hn).2 i).cases_key hi hkey with h | ⟨w, h, rfl⟩ | ⟨hw, -, hr⟩
        · rw [h]
          rfl
        · rw [h]
          rfl
        · rw [← hdrop'] at hr hlt ⊢
          exact tryGet_spec (fuel + 1) (cs i) key (pos + 1) hw.wfRoot hr hlt
      rw [tryGet, nibbleAt_of_drop hdrop hi]
      simp only [bind, Except.bind, hchild, pure, Except.pure, hdrop, lookup, hi]
      rfl
    | nil => exact absurd hn (by simp)
    | hash _ => exact absurd hn (by simp)
    | value _ => exact absurd hn (by simp)

end Get

end GoMetadium.Trie
