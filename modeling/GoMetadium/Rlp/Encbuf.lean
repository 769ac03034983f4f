import GoMetadium.Lib.Rlp

set_option autoImplicit false

/-! # The encoder's buffer (`rlp/encode.go`)

`EncodeToBytes` writes into an `encbuf`. String data goes into `str` at once. A list header
cannot, because the size it holds is known only when the list ends: `list()` records a
`listhead` at the current end of `str`, holding for now the total size of the list headers
written so far, and `listEnd` replaces that by the size of the list's content (headers of
nested lists included) and adds the header's own size to `lhsize`. `toBytes` then copies the
string data and puts each header in at its offset.

The model keeps `lheads` as a list in order of creation; `listEnd` updates the entry at the
index that `list()` appended, where Go keeps a pointer to it. The writer is the one for an
item tree held in an empty interface: a `[]byte` for a string (`writeBytes`), a
`[]interface{}` for a list (`makeSliceWriter` over `writeInterface`).

The main result: the bytes `toBytes` assembles are the encoding `Rlp.Item.encode` describes
(`encodeToBytes_eq_encode`).
-/

open Rlp

namespace GoMetadium.Rlp

/-! ## The buffer -/

/-- `listhead`: the offset of a list header in the string data, and the size it encodes. -/
structure ListHead where
  offset : Nat
  size : Nat
  deriving DecidableEq, Repr

/-- `encbuf`: the string data, the list headers and the sum of their sizes. -/
structure EncBuf where
  str : List UInt8
  lheads : List ListHead
  lhsize : Nat
  deriving DecidableEq, Repr

/-- `w.reset()`: an empty buffer. -/
def EncBuf.empty : EncBuf := ⟨[], [], 0⟩

/-- `headsize(size)`. -/
def headsize (size : Nat) : Nat := if size < 56 then 1 else 1 + (putint size).length

/-- `w.size()`. -/
def EncBuf.size (w : EncBuf) : Nat := w.str.length + w.lhsize

/-- `w.encodeStringHeader(size)`. -/
def EncBuf.encodeStringHeader (w : EncBuf) (size : Nat) : EncBuf :=
  if size < 56 then { w with str := w.str ++ [0x80 + UInt8.ofNat size] }
  else { w with str := w.str ++ ((0xB7 + UInt8.ofNat (putint size).length) :: putint size) }

/-- `w.encodeString(b)`. -/
def EncBuf.encodeString (w : EncBuf) (b : List UInt8) : EncBuf :=
  -- a single byte below `0x80` needs no string header
  if b.length = 1 ∧ b.headD 0 ≤ 0x7F then { w with str := w.str ++ b }
  else
    let w := w.encodeStringHeader b.length
    { w with str := w.str ++ b }

/-- `w.list()`: a new header at the end of the string data. -/
def EncBuf.list (w : EncBuf) : EncBuf :=
  { w with lheads := w.lheads ++ [⟨w.str.length, w.lhsize⟩] }

/-- `w.listEnd(lh)`, for the header `lh` at index `i` of `lheads`. -/
def EncBuf.listEnd (w : EncBuf) (i : Nat) : EncBuf :=
  match w.lheads[i]? with
  | none => w
  | some lh =>
    let size := w.size - lh.offset - lh.size
    { w with
      lheads := w.lheads.set i { lh with size := size }
      lhsize := if size < 56 then w.lhsize + 1 else w.lhsize + 1 + (putint size).length }

mutual

/-- The writer of an item held in an empty interface. -/
def writeItem : Item → EncBuf → EncBuf
  | .str b, w => w.encodeString b
  | .list items, w => (writeItems items w.list).listEnd w.lheads.length

/-- The loop of the slice writer over the elements. -/
def writeItems : List Item → EncBuf → EncBuf
  | [], w => w
  | i :: is, w => writeItems is (writeItem i w)

end

/-- The loop of `w.toBytes()` from the position `strpos` in the string data. -/
def toBytesLoop (str : List UInt8) : Nat → List ListHead → List UInt8
  | strpos, [] => str.drop strpos
  | strpos, head :: heads =>
    -- the string data before the header, then the header
    let before := (str.drop strpos).take (head.offset - strpos)
    before ++ puthead 0xC0 0xF7 head.size ++ toBytesLoop str (strpos + before.length) heads

/-- `w.toBytes()`. -/
def EncBuf.toBytes (w : EncBuf) : List UInt8 := toBytesLoop w.str 0 w.lheads

/-- `EncodeToBytes(t)` for an item tree `t`. -/
def encodeToBytes (t : Item) : List UInt8 := (writeItem t EncBuf.empty).toBytes

/-! ## Headers at their offsets

`renderSeg seg base heads` is a stretch `seg` of string data that starts at offset `base`,
with `heads` put in at their offsets. -/

/-- Headers sorted by offset, between `lo` and `hi`. -/
def HeadsIn (lo hi : Nat) : List ListHead → Prop
  | [] => True
  | h :: hs => lo ≤ h.offset ∧ h.offset ≤ hi ∧ HeadsIn h.offset hi hs

/-- A stretch of string data with headers put in at their offsets. -/
def renderSeg : List UInt8 → Nat → List ListHead → List UInt8
  | seg, _, [] => seg
  | seg, base, h :: hs =>
    seg.take (h.offset - base) ++ puthead 0xC0 0xF7 h.size ++
      renderSeg (seg.drop (h.offset - base)) h.offset hs

theorem headsIn_append {lo mid hi : Nat} {hs₁ hs₂ : List ListHead} (hlo : lo ≤ mid)
    (h₁ : HeadsIn lo mid hs₁) (h₂ : HeadsIn mid hi hs₂) (hmid : mid ≤ hi) :
    HeadsIn lo hi (hs₁ ++ hs₂) := by
  induction hs₁ generalizing lo with
  | nil =>
    cases hs₂ with
    | nil => trivial
    | cons h hs => exact ⟨by have := h₂.1; omega, h₂.2.1, h₂.2.2⟩
  | cons h hs ih => exact ⟨h₁.1, by have := h₁.2.1; omega, ih h₁.2.1 h₁.2.2⟩

/-- String data before every header comes out first. -/
theorem renderSeg_prepend (s₁ s₂ : List UInt8) (base : Nat) {hi : Nat} {hs : List ListHead}
    (h : HeadsIn (base + s₁.length) hi hs) :
    renderSeg (s₁ ++ s₂) base hs = s₁ ++ renderSeg s₂ (base + s₁.length) hs := by
  cases hs with
  | nil => rfl
  | cons hd hs =>
    have hoff : s₁.length ≤ hd.offset - base := by have := h.1; omega
    have hsub : hd.offset - base - s₁.length = hd.offset - (base + s₁.length) := by omega
    simp only [renderSeg]
    rw [List.take_append, List.drop_append, List.take_of_length_le hoff,
      List.drop_of_length_le hoff, List.nil_append, hsub]
    simp only [List.append_assoc]

/-- Two stretches with their headers render one after the other. -/
theorem renderSeg_append (s₁ s₂ : List UInt8) (base : Nat) {hi : Nat} {hs₁ hs₂ : List ListHead}
    (h₁ : HeadsIn base (base + s₁.length) hs₁) (h₂ : HeadsIn (base + s₁.length) hi hs₂) :
    renderSeg (s₁ ++ s₂) base (hs₁ ++ hs₂) =
      renderSeg s₁ base hs₁ ++ renderSeg s₂ (base + s₁.length) hs₂ := by
  induction hs₁ generalizing s₁ base with
  | nil => exact renderSeg_prepend s₁ s₂ base h₂
  | cons hd hs ih =>
    obtain ⟨hlo, hhi, hrest⟩ := h₁
    have hoff : hd.offset - base ≤ s₁.length := by omega
    have hbase : hd.offset + (s₁.drop (hd.offset - base)).length = base + s₁.length := by
      rw [List.length_drop]
      omega
    simp only [List.cons_append, renderSeg]
    rw [List.take_append_of_le_length hoff, List.drop_append_of_le_length hoff]
    rw [← hbase] at h₂ hrest
    rw [ih (s₁.drop (hd.offset - base)) hd.offset hrest h₂, hbase]
    simp only [List.append_assoc]

/-- `toBytes` from `strpos` puts the headers in at their offsets. -/
theorem toBytesLoop_eq_renderSeg (str : List UInt8) :
    ∀ (strpos : Nat) (hs : List ListHead), HeadsIn strpos str.length hs →
      toBytesLoop str strpos hs = renderSeg (str.drop strpos) strpos hs
  | strpos, [], _ => rfl
  | strpos, hd :: hs, ⟨hlo, hhi, hrest⟩ => by
    have hlen : ((str.drop strpos).take (hd.offset - strpos)).length = hd.offset - strpos := by
      simp only [List.length_take, List.length_drop]
      omega
    simp only [toBytesLoop, renderSeg, hlen, List.drop_drop]
    rw [toBytesLoop_eq_renderSeg str (strpos + (hd.offset - strpos)) hs
      (by rw [show strpos + (hd.offset - strpos) = hd.offset by omega]; exact hrest)]
    rw [show strpos + (hd.offset - strpos) = hd.offset by omega]

/-! ## The writer -/

theorem length_puthead (smalltag largetag : UInt8) (size : Nat) :
    (puthead smalltag largetag size).length = headsize size := by
  unfold puthead headsize
  split_ifs <;> simp [Nat.add_comm]

/-- What writing an item adds to a buffer: string data `seg` and headers `hs` after the
ones there, which put in at their offsets give the item's encoding, and `k` bytes of list
headers. -/
def Writes (t : Item) (w w' : EncBuf) : Prop :=
  ∃ seg hs k, w' = ⟨w.str ++ seg, w.lheads ++ hs, w.lhsize + k⟩ ∧
    HeadsIn w.str.length (w.str.length + seg.length) hs ∧
    renderSeg seg w.str.length hs = t.encode ∧ seg.length + k = t.encode.length

/-- The same for the elements of a list, whose encodings follow one another. -/
def WritesAll (items : List Item) (w w' : EncBuf) : Prop :=
  ∃ seg hs k, w' = ⟨w.str ++ seg, w.lheads ++ hs, w.lhsize + k⟩ ∧
    HeadsIn w.str.length (w.str.length + seg.length) hs ∧
    renderSeg seg w.str.length hs = encodeList items ∧ seg.length + k = (encodeList items).length

theorem writes_str (b : List UInt8) (w : EncBuf) : Writes (.str b) w (writeItem (.str b) w) := by
  have henc : Item.encode (.str b) =
      if b.length = 1 ∧ b.headD 0 ≤ 0x7F then b else puthead 0x80 0xB7 b.length ++ b := by
    simp only [Item.encode]
  by_cases hb : b.length = 1 ∧ b.headD 0 ≤ 0x7F
  · rw [if_pos hb] at henc
    refine ⟨b, [], 0, ?_, trivial, henc.symm, by rw [henc]; rfl⟩
    simp only [writeItem, EncBuf.encodeString, if_pos hb, List.append_nil, Nat.add_zero]
  · rw [if_neg hb] at henc
    refine ⟨puthead 0x80 0xB7 b.length ++ b, [], 0, ?_, trivial, henc.symm, by rw [henc]; rfl⟩
    simp only [writeItem, EncBuf.encodeString, if_neg hb, EncBuf.encodeStringHeader, puthead,
      List.append_nil, Nat.add_zero]
    split_ifs <;> simp

/-- `listEnd` on the header at index `pre.length`: its size becomes what was written after it. -/
theorem listEnd_at (str : List UInt8) (pre post : List ListHead) (lh : ListHead) (lhsize : Nat) :
    EncBuf.listEnd ⟨str, pre ++ lh :: post, lhsize⟩ pre.length =
      ⟨str, pre ++ { lh with size := str.length + lhsize - lh.offset - lh.size } :: post,
        lhsize + headsize (str.length + lhsize - lh.offset - lh.size)⟩ := by
  unfold EncBuf.listEnd
  rw [List.getElem?_append_right (le_refl _), Nat.sub_self, List.getElem?_cons_zero]
  simp only [EncBuf.size, List.set_append_right _ _ (le_refl _), Nat.sub_self, List.set_cons_zero,
    EncBuf.mk.injEq, true_and]
  unfold headsize
  by_cases h : str.length + lhsize - lh.offset - lh.size < 56
  · simp only [h, if_true]
  · simp only [h, if_false]
    omega

/-- Closing the list: `listEnd` finds the list's header where `list()` left it, sets the size
of the content written since, and counts the header. -/
theorem writes_list (items : List Item) (w : EncBuf)
    (hitems : WritesAll items w.list (writeItems items w.list)) :
    Writes (.list items) w (writeItem (.list items) w) := by
  obtain ⟨seg, hs, k, heq, hin, hrender, hlen⟩ := hitems
  have hwrite : writeItem (.list items) w = (writeItems items w.list).listEnd w.lheads.length := rfl
  -- the buffer after the elements, with the header `list()` left in it
  rw [hwrite, heq]
  simp only [EncBuf.list, List.append_assoc, List.singleton_append] at hin hrender ⊢
  rw [listEnd_at]
  dsimp only
  have hsize : (w.str ++ seg).length + (w.lhsize + k) - w.str.length - w.lhsize =
      (encodeList items).length := by
    simp only [List.length_append]
    omega
  rw [hsize]
  refine ⟨seg, ⟨w.str.length, (encodeList items).length⟩ :: hs,
    k + headsize (encodeList items).length, by simp [Nat.add_assoc], ⟨le_refl _, Nat.le_add_right _ _, hin⟩,
    ?_, ?_⟩
  · rw [renderSeg, Nat.sub_self, List.take_zero, List.drop_zero, List.nil_append, hrender]
    simp only [Item.encode]
  · simp only [Item.encode, List.length_append, length_puthead]
    omega

theorem writesAll_nil (w : EncBuf) : WritesAll [] w w :=
  ⟨[], [], 0, by simp, trivial, rfl, rfl⟩

theorem writesAll_cons {i : Item} {is : List Item} {w w₁ w₂ : EncBuf} (h₁ : Writes i w w₁)
    (h₂ : WritesAll is w₁ w₂) : WritesAll (i :: is) w w₂ := by
  obtain ⟨seg₁, hs₁, k₁, rfl, hin₁, hr₁, hl₁⟩ := h₁
  obtain ⟨seg₂, hs₂, k₂, rfl, hin₂, hr₂, hl₂⟩ := h₂
  simp only [List.length_append] at hin₂ hr₂
  refine ⟨seg₁ ++ seg₂, hs₁ ++ hs₂, k₁ + k₂, by simp [Nat.add_assoc], ?_, ?_, ?_⟩
  · exact headsIn_append (by omega) hin₁ (by simpa [Nat.add_assoc] using hin₂) (by simp)
  · rw [renderSeg_append seg₁ seg₂ _ hin₁ hin₂, hr₁, hr₂]
    rfl
  · simp only [encodeList, List.length_append]
    omega

mutual

/-- Writing an item adds its encoding, by induction on the item tree. -/
theorem writes_writeItem : ∀ (t : Item) (w : EncBuf), Writes t w (writeItem t w)
  | .str b, w => writes_str b w
  | .list items, w => writes_list items w (writesAll_writeItems items w.list)

/-- Writing the elements adds their encodings one after another. -/
theorem writesAll_writeItems : ∀ (items : List Item) (w : EncBuf),
    WritesAll items w (writeItems items w)
  | [], w => writesAll_nil w
  | i :: is, w => writesAll_cons (writes_writeItem i w) (writesAll_writeItems is (writeItem i w))

end

/-- `EncodeToBytes` gives the encoding of the item: the deferred list headers land where
`Item.encode` puts them. -/
theorem encodeToBytes_eq_encode (t : Item) : encodeToBytes t = t.encode := by
  obtain ⟨seg, hs, k, heq, hin, hrender, -⟩ := writes_writeItem t EncBuf.empty
  unfold encodeToBytes EncBuf.toBytes
  rw [heq]
  simp only [EncBuf.empty, List.nil_append, List.length_nil, Nat.zero_add] at hin hrender ⊢
  rw [toBytesLoop_eq_renderSeg seg 0 hs hin, List.drop_zero, hrender]

end GoMetadium.Rlp
