import GoMetadium.Trie.Shape

set_option autoImplicit false

/-! # Insertion into a canonical trie

`insert` of a value at a HEX key into a canonical trie with no hash node in it succeeds with
the fuel the public operations pass, returns a canonical node, and changes what the trie
holds at that one key (`insert_spec`). The proof follows the cases of `t.insert`: a nil node,
a full node (one child changes), a short node whose key is all matched (its child changes) and
a short node that has to be split into a branch at the first byte where the keys differ.
-/

namespace GoMetadium.Trie

open Node

variable (dbNode : List UInt8 → Option Node)

/-- What inserting the value `v` at `key` into `n` must give back as (`dirty`, `n'`): a
canonical node that holds `v` at `key` and what `n` holds at every other key, full where `n`
was full, and `n` itself when nothing changed. -/
structure InsertPost (n : Node) (key v : List UInt8) (dirty : Bool) (n' : Node) : Prop where
  wf : n'.Wf
  full : n.isFull → n'.isFull
  clean : dirty = false → n' = n
  lookup : ∀ k, n'.lookup k = if k = key then some v else n.lookup k

/-- `insert` with the bound `fuel` meets its specification on every canonical root. -/
def InsertSpec (fuel : Nat) (v : List UInt8) : Prop :=
  ∀ (n : Node) (pfx key : List UInt8), n.WfRoot → IsKey key → key.length < fuel →
    ∃ dirty n', insert dbNode fuel n pfx key (.value v) = .ok (dirty, n') ∧ InsertPost n key v dirty n'

/-! ## Equations -/

theorem insert_nil (fuel : Nat) (pfx key : List UInt8) (value : Node) :
    insert dbNode (fuel + 1) .nil pfx key value = .ok (true, wrapShort key value) := by
  rw [insert]
  unfold wrapShort
  split <;> rfl

theorem insert_value_nil (fuel : Nat) (w pfx v : List UInt8) :
    insert dbNode (fuel + 1) (.value w) pfx [] (.value v) = .ok (w != v, .value v) := by
  rw [insert, if_pos rfl]

theorem nibbleAt_append_cons {p r : List UInt8} {y : UInt8} {i : Fin 17} (h : nibIndex y = some i) :
    nibbleAt (p ++ y :: r) p.length = .ok i := by
  simp [nibbleAt, h]

section Split

variable {p a b : List UInt8} {x y : UInt8} {i₁ i₂ : Fin 17} {c : Node} {v : List UInt8}

/-- The branch `insert` builds where the key `p ++ x :: a` leaves the short node of key
`p ++ y :: b`: the old child under `y`, the new value under `x`. -/
theorem lookup_branch (hxy : x ≠ y) (hx : nibIndex x = some i₂) (hy : nibIndex y = some i₁)
    (f : NodeFlag) (k : List UInt8) :
    (full (Function.update (Function.update emptyChildren i₁ (wrapShort b c)) i₂
        (wrapShort a (.value v))) newFlag).lookup k =
      if k = x :: a then some v else (short (y :: b) c f).lookup k := by
  have hi : i₁ ≠ i₂ := by
    rintro rfl
    exact hxy ((toByte_nibIndex hx).symm.trans (toByte_nibIndex hy))
  cases k with
  | nil => simp [lookup_short]
  | cons z q =>
    cases hz : nibIndex z with
    | none =>
      have hzx : z ≠ x := by
        rintro rfl
        simp [hx] at hz
      have hzy : z ≠ y := by
        rintro rfl
        simp [hy] at hz
      rw [lookup_short_cons_of_ne hzy]
      simp [lookup, hz, hzx]
    | some j =>
      obtain rfl := toByte_nibIndex hz
      rw [lookup_full_cons]
      by_cases hj₂ : j = i₂
      · -- the new value's child
        subst hj₂
        obtain rfl := toByte_nibIndex hx
        rw [Function.update_self, lookup_wrapShort _ _ f, lookup_leaf,
          lookup_short_cons_of_ne hxy]
        simp
      · have hzx : Fin.toByte j ≠ x := fun h => hj₂ (by rw [← h, nibIndex_toByte] at hx; simpa using hx)
        rw [Function.update_of_ne hj₂, if_neg (fun h => hzx (List.cons.inj h).1)]
        by_cases hj₁ : j = i₁
        · -- the old node's child
          subst hj₁
          obtain rfl := toByte_nibIndex hy
          rw [Function.update_self, lookup_wrapShort _ _ f,
            ← lookup_short_append_left [Fin.toByte j] b c f q]
          rfl
        · have hzy : Fin.toByte j ≠ y := fun h => hj₁ (by rw [← h, nibIndex_toByte] at hy; simpa using hy)
          rw [Function.update_of_ne hj₁, lookup_short_cons_of_ne hzy]
          rfl

/-- The branch is canonical when what it holds under `x` and under `y` may stand there. -/
theorem wf_branch (hi : i₁ ≠ i₂) {c₁ c₂ : Node} (h₁ : c₁ ≠ .nil) (h₂ : c₂ ≠ .nil)
    (ok₁ : ChildOk i₁ c₁) (ok₂ : ChildOk i₂ c₂) :
    (full (Function.update (Function.update emptyChildren i₁ c₁) i₂ c₂) newFlag).Wf := by
  rw [wf_full_iff]
  refine ⟨two_le_length_liveChildren hi ?_ ?_, fun j => ?_⟩
  · rwa [Function.update_of_ne hi, Function.update_self]
  · rwa [Function.update_self]
  · by_cases hj₂ : j = i₂
    · subst hj₂
      rwa [Function.update_self]
    · rw [Function.update_of_ne hj₂]
      by_cases hj₁ : j = i₁
      · subst hj₁
        rwa [Function.update_self]
      · rw [Function.update_of_ne hj₁]
        exact Or.inl rfl

end Split

/-! ## The cases of `insert` -/

section Cases

variable {fuel : Nat} {v : List UInt8}

/-- Into a nil node: a leaf. -/
theorem insertPost_nil {key : List UInt8} (hkey : IsKey key) :
    InsertPost .nil key v true (.short key (.value v) newFlag) where
  wf := wf_short_iff.mpr (Or.inl ⟨rfl, hkey⟩)
  full := by simp [isFull]
  clean := by simp
  lookup k := by simp [lookup_leaf]

/-- A canonical node that already holds `v` at `key`: nothing to change. -/
theorem insertPost_self {n : Node} {key : List UInt8} (hn : n.Wf) (h : n.lookup key = some v) :
    InsertPost n key v false n where
  wf := hn
  full := id
  clean _ := rfl
  lookup k := by
    split
    · subst k
      exact h
    · rfl

/-- Into the child `i` of a full node, which `nibIndex b` selects. -/
theorem insert_child (ih : InsertSpec dbNode fuel v) {i : Fin 17} {c : Node} (hc : ChildOk i c)
    {b : UInt8} (hb : nibIndex b = some i) (pfx : List UInt8) {rest : List UInt8} (hkey : IsKey (b :: rest))
    (hf : rest.length < fuel) :
    ∃ dirty c', insert dbNode fuel c pfx rest (.value v) = .ok (dirty, c') ∧ ChildOk i c' ∧
      c' ≠ .nil ∧ (dirty = false → c' = c) ∧
      ∀ q, c'.lookup q = if q = rest then some v else c.lookup q := by
  obtain ⟨fuel, rfl⟩ : ∃ f, fuel = f + 1 := ⟨fuel - 1, by omega⟩
  rcases hc.cases_key hb hkey with rfl | ⟨w, rfl, rfl⟩ | ⟨hw, hi, hrest⟩
  · -- a nil child becomes what is left of the new leaf after `b`
    have hleaf : (short ([] ++ b :: rest) (.value v) newFlag).Wf :=
      wf_short_iff.mpr (Or.inl ⟨rfl, by simpa using hkey⟩)
    obtain ⟨i', hi', hne, hok⟩ := Wf.split_child hleaf
    rw [hb, Option.some_inj] at hi'
    subst hi'
    refine ⟨true, _, insert_nil dbNode fuel pfx rest _, hok, hne, by simp, fun q => ?_⟩
    rw [lookup_wrapShort _ _ newFlag, lookup_leaf]
    simp
  · -- the 17th child is a value, and the key ends there: the value is replaced
    have hok : ChildOk i (.value v) := by
      rcases hc with h | ⟨h16, -⟩ | ⟨-, h⟩
      · cases h
      · exact Or.inr (Or.inl ⟨h16, rfl⟩)
      · exact absurd h (by simp)
    refine ⟨w != v, .value v, insert_value_nil dbNode fuel w pfx v, hok, Node.noConfusion,
      fun h => by simp at h; rw [h], fun q => ?_⟩
    cases q <;> simp
  · -- a canonical child: the specification one level down
    obtain ⟨dirty, c', hins, post⟩ := ih c pfx rest hw.wfRoot hrest hf
    exact ⟨dirty, c', hins, Or.inr (Or.inr ⟨hi, post.wf⟩), post.wf.ne_nil, post.clean, post.lookup⟩

/-- Into a full node: the child the first byte selects. -/
theorem insert_full_spec (ih : InsertSpec dbNode fuel v) {cs : Fin 17 → Node} {f : NodeFlag}
    (hn : (full cs f).Wf) {pfx key : List UInt8} (hkey : IsKey key) (hf : key.length < fuel + 1) :
    ∃ dirty n', insert dbNode (fuel + 1) (full cs f) pfx key (.value v) = .ok (dirty, n') ∧
      InsertPost (full cs f) key v dirty n' := by
  obtain ⟨b, rest, rfl⟩ := List.exists_cons_of_ne_nil hkey.ne_nil
  obtain ⟨i, hi⟩ := IsKey.nibIndex_head hkey
  obtain ⟨hlive, hok⟩ := wf_full_iff.mp hn
  obtain ⟨dirty, c', hins, hok', hne, hclean, hlook⟩ :=
    insert_child dbNode ih (hok i) hi (pfx ++ [b]) hkey (by simpa using hf)
  have hidx : nibbleAt (b :: rest) 0 = .ok i := nibbleAt_append_cons (p := []) hi
  rw [insert, if_neg hkey.ne_nil]
  simp only [hidx, List.take_succ_cons, List.take_zero, List.drop_succ_cons, List.drop_zero, hins,
    bind, Except.bind, pure, Except.pure]
  obtain rfl := toByte_nibIndex hi
  cases dirty with
  | false =>
    -- nothing changed below: the node is returned as it was
    obtain rfl := hclean rfl
    refine ⟨false, _, rfl, hn, fun h => h, fun _ => rfl, fun k => ?_⟩
    have := lookup_full_update f f hlook k
    rwa [Function.update_eq_self] at this
  | true =>
    refine ⟨true, _, rfl, ?_, fun _ => rfl, by simp, lookup_full_update f newFlag hlook⟩
    refine wf_full_iff.mpr ⟨le_trans hlive (length_liveChildren_update_le cs i hne), fun j => ?_⟩
    by_cases hji : j = i
    · subst hji
      rwa [Function.update_self]
    · rw [Function.update_of_ne hji]
      exact hok j

/-- Into a short node: down into its child when the key runs through the node's key, a new
branch where the two keys part otherwise. -/
theorem insert_short_spec (ih : InsertSpec dbNode fuel v) {nkey : List UInt8} {c : Node}
    {f : NodeFlag} (hn : (short nkey c f).Wf) {pfx key : List UInt8} (hkey : IsKey key)
    (hf : key.length < fuel + 1) :
    ∃ dirty n', insert dbNode (fuel + 1) (short nkey c f) pfx key (.value v) = .ok (dirty, n') ∧
      InsertPost (short nkey c f) key v dirty n' := by
  obtain ⟨p, a, b, rfl, rfl, hlen, hne⟩ := prefixLen_decomp key nkey
  rw [insert, if_neg hkey.ne_nil]
  simp only [hlen]
  cases b with
  | nil =>
    -- the key runs through the node's key: the rest goes into the child
    simp only [List.append_nil] at hn hkey hf ⊢
    simp only [if_true, List.take_left', List.drop_left', bind, Except.bind, pure, Except.pure]
    rcases wf_short_iff.mp hn with ⟨hc, hk⟩ | ⟨hc, hk0, hk, hw⟩
    · -- a leaf: the key is the leaf's key, and the value is replaced
      obtain ⟨w, rfl⟩ := isValue_iff.mp hc
      obtain rfl : a = [] := hk.eq_of_append hkey
      simp only [List.append_nil] at hf ⊢
      have hp0 : 0 < p.length := List.length_pos_of_ne_nil hk.ne_nil
      obtain ⟨fuel, rfl⟩ : ∃ f, fuel = f + 1 := ⟨fuel - 1, by omega⟩
      rw [insert_value_nil]
      by_cases hwv : w = v
      · subst hwv
        exact ⟨false, _, by simp, insertPost_self hn (by simp [lookup_leaf])⟩
      · refine ⟨true, short p (.value v) newFlag, by simp [hwv], ?_⟩
        refine ⟨wf_short_iff.mpr (Or.inl ⟨rfl, hk⟩), by simp [isFull], by simp, fun k => ?_⟩
        rw [lookup_leaf, lookup_leaf]
        split <;> rfl
    · -- an extension: the rest of the key goes into the full node below
      have ha : a ≠ [] := by
        rintro rfl
        exact not_isNibbles_of_isKey (by simpa using hkey) hk
      have hrest := (isKey_of_append hkey ha).2
      have hlt : a.length < fuel := by
        have : p.length ≠ 0 := by simpa using hk0
        simp only [List.length_append] at hf
        omega
      obtain ⟨dirty, nn, hins, post⟩ := ih c (pfx ++ p) a hw.wfRoot hrest hlt
      rw [hins]
      cases dirty with
      | false =>
        obtain rfl := post.clean rfl
        refine ⟨false, _, rfl, insertPost_self hn ?_⟩
        rw [lookup_short_append, post.lookup]
        simp
      | true =>
        refine ⟨true, _, rfl, ?_, by simp [isFull], by simp, lookup_short_update f newFlag post.lookup⟩
        exact wf_short_iff.mpr (Or.inr ⟨post.full hc, hk0, hk, post.wf⟩)
  | cons y b =>
    -- the keys part after `p`: a branch with the old node under `y` and the value under `x`
    have ha : a ≠ [] := by
      rintro rfl
      rcases wf_short_iff.mp hn with ⟨-, hk⟩ | ⟨-, -, hk, -⟩
      · exact absurd (hkey.eq_of_append (by simpa using hk)) (by simp)
      · exact not_isNibbles_of_isKey (by simpa using hkey) (isNibbles_append.mp hk).1
    obtain ⟨x, a, rfl⟩ := List.exists_cons_of_ne_nil ha
    have hxy : x ≠ y := hne x y rfl rfl
    obtain ⟨i₁, hi₁, hne₁, hok₁⟩ := Wf.split_child hn
    have hleaf : (short (p ++ x :: a) (.value v) newFlag).Wf := wf_short_iff.mpr (Or.inl ⟨rfl, hkey⟩)
    obtain ⟨i₂, hi₂, hne₂, hok₂⟩ := Wf.split_child hleaf
    have hi : i₁ ≠ i₂ := by
      rintro rfl
      exact hxy ((toByte_nibIndex hi₂).symm.trans (toByte_nibIndex hi₁))
    obtain ⟨fuel, rfl⟩ : ∃ f, fuel = f + 1 := ⟨fuel - 1, by simp at hf; omega⟩
    have hlen' : p.length ≠ (p ++ y :: b).length := by simp
    simp only [if_neg hlen', nibbleAt_append_cons hi₁, nibbleAt_append_cons hi₂, insert_nil,
      List.drop_append, List.drop_eq_nil_of_le (Nat.le_succ _), List.nil_append,
      show p.length + 1 - p.length = 1 by omega, List.drop_succ_cons, List.drop_zero,
      List.take_left', bind, Except.bind, pure, Except.pure]
    have hwf := wf_branch hi hne₁ hne₂ hok₁ hok₂
    have hlook : ∀ k, (full (Function.update (Function.update emptyChildren i₁ (wrapShort b c)) i₂
        (wrapShort a (.value v))) newFlag).lookup k =
          if k = x :: a then some v else (short (y :: b) c f).lookup k :=
      lookup_branch hxy hi₂ hi₁ f
    by_cases hp : p = []
    · subst hp
      refine ⟨true, _, by simp, hwf, by simp [isFull], by simp, fun k => ?_⟩
      simpa using hlook k
    · have hp0 : p.length ≠ 0 := by simpa using hp
      refine ⟨true, short p (full (Function.update (Function.update emptyChildren i₁ (wrapShort b c))
        i₂ (wrapShort a (.value v))) newFlag) newFlag, by simp [hp0], ?_, by simp [isFull], by simp,
        fun k => ?_⟩
      · have hpn := (isKey_append_cons.mp hkey).1
        exact wf_short_iff.mpr (Or.inr ⟨rfl, hp, hpn, hwf⟩)
      · rw [lookup_short_update f newFlag hlook, lookup_short_short]

end Cases

/-! ## Insertion -/

/-- `insert` of a value at a HEX key into a canonical trie with no hash node in it succeeds
with any bound longer than the key, and gives a canonical node that holds the value at the key
and what the trie held at every other key. -/
theorem insert_spec (v : List UInt8) : ∀ fuel, InsertSpec dbNode fuel v
  | 0 => fun _ _ _ _ _ hf => absurd hf (Nat.not_lt_zero _)
  | fuel + 1 => by
    intro n pfx key hn hkey hf
    rcases hn with rfl | hn
    · -- an empty trie: a leaf
      have hne := hkey.ne_nil
      refine ⟨true, _, ?_, insertPost_nil hkey⟩
      rw [insert_nil, wrapShort, if_neg hne]
    cases n with
    | short nkey c f => exact insert_short_spec dbNode (insert_spec v fuel) hn hkey hf
    | full cs f => exact insert_full_spec dbNode (insert_spec v fuel) hn hkey hf
    | nil => exact absurd hn (by simp)
    | hash _ => exact absurd hn (by simp)
    | value _ => exact absurd hn (by simp)

end GoMetadium.Trie
