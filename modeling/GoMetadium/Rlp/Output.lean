import GoMetadium.Rlp.Encbuf

set_option autoImplicit false

/-! # The encoder's three outputs (`rlp/encode.go`)

An `encbuf` holds string data and list headers apart, and three functions put them together:
`toBytes` into one slice (`EncodeToBytes`), `toWriter` as a sequence of calls `Write` on an
`io.Writer` (`Encode`), and `encReader.next` as the pieces of an `io.Reader` (`EncodeToReader`),
whose `Read` copies pieces into the caller's buffer and keeps what does not fit.

* `toWriter` hands a writer the chunks `writeChunks`, which do not depend on the writer and
  whose concatenation is what `toBytes` assembles (`toWriterLoop_eq_feed`,
  `flatten_writeChunks`).
* A reader is described by the bytes it has still to return, `EncReader.rest`. A `Read` of a
  buffer of `size` bytes returns the first `size` of them, and `io.EOF` when none remain after
  them (`read_spec`), so successive reads return the encoding piece by piece (`readAll_eq`).

The model of `Read` bounds its loop by the pieces left (`EncReader.pending`); `read_spec` shows
that the bound is never reached from a reader `EncodeToReader` made, or any read left.
-/

open Rlp

namespace GoMetadium.Rlp

/-! ## Writers -/

/-- An `io.Writer` with state `σ`: `Write(p)` gives the new state, the number of bytes written
and an error. As `io.Writer` requires, a write that returns no error wrote all of `p`. -/
structure Writer (σ E : Type) where
  write : σ → List UInt8 → σ × Nat × Option E
  write_all : ∀ s p, (write s p).2.2 = none → (write s p).2.1 = p.length

namespace Writer

variable {σ E : Type}

/-- Handing `chunks` to `Write` one after another, up to the first error. -/
def feed (out : Writer σ E) : List (List UInt8) → σ → σ × Option E
  | [], s => (s, none)
  | p :: ps, s =>
    match out.write s p with
    | (s, _, some e) => (s, some e)
    | (s, _, none) => out.feed ps s

end Writer

/-! ## `toWriter` -/

section ToWriter

variable {σ E : Type}

/-- The loop of `w.toWriter(out)` over the headers, from the position `strpos` in the string
data. -/
def toWriterLoop (out : Writer σ E) (str : List UInt8) : Nat → List ListHead → σ → σ × Option E
  | strpos, [], s =>
    -- string data after the last list header
    if strpos < str.length then
      match out.write s (str.drop strpos) with
      | (s, _, err) => (s, err)
    else (s, none)
  | strpos, head :: heads, s =>
    -- string data before the header, when there is any
    let before : σ × Nat × Option E :=
      if head.offset - strpos > 0 then
        match out.write s ((str.drop strpos).take (head.offset - strpos)) with
        | (s, n, err) => (s, strpos + n, err)
      else (s, strpos, none)
    match before with
    | (s, _, some e) => (s, some e)
    | (s, strpos, none) =>
      match out.write s (puthead 0xC0 0xF7 head.size) with
      | (s, _, some e) => (s, some e)
      | (s, _, none) => toWriterLoop out str strpos heads s

/-- `w.toWriter(out)`. -/
def EncBuf.toWriter (w : EncBuf) (out : Writer σ E) (s : σ) : σ × Option E :=
  toWriterLoop out w.str 0 w.lheads s

/-- `Encode(out, t)` for an item tree `t` and a writer that is not an `encbuf`. -/
def encode (out : Writer σ E) (t : Item) (s : σ) : σ × Option E :=
  (writeItem t EncBuf.empty).toWriter out s

end ToWriter

/-- The chunks `toWriter` hands to `Write` from `strpos` on: for each header the string data
before it, when there is any, and the header; then the string data after the last header, when
there is any. -/
def writeChunks (str : List UInt8) : Nat → List ListHead → List (List UInt8)
  | strpos, [] => if strpos < str.length then [str.drop strpos] else []
  | strpos, head :: heads =>
    let before := (str.drop strpos).take (head.offset - strpos)
    (if head.offset - strpos > 0 then [before] else []) ++
      puthead 0xC0 0xF7 head.size :: writeChunks str (strpos + before.length) heads

section ToWriterSpec

variable {σ E : Type}

/-- A write that returns no error, then the chunks after it. -/
theorem feed_cons_of_write {out : Writer σ E} {s s' : σ} {p : List UInt8} {n : Nat}
    (h : out.write s p = (s', n, none)) (ps : List (List UInt8)) :
    out.feed (p :: ps) s = out.feed ps s' := by
  simp only [Writer.feed, h]

/-- A write that returns an error ends the feed. -/
theorem feed_cons_of_error {out : Writer σ E} {s s' : σ} {p : List UInt8} {n : Nat} {e : E}
    (h : out.write s p = (s', n, some e)) (ps : List (List UInt8)) :
    out.feed (p :: ps) s = (s', some e) := by
  simp only [Writer.feed, h]

/-- `toWriter` hands the writer the chunks `writeChunks`, whatever the writer does with them. -/
theorem toWriterLoop_eq_feed (out : Writer σ E) (str : List UInt8) :
    ∀ (strpos : Nat) (heads : List ListHead) (s : σ),
      toWriterLoop out str strpos heads s = out.feed (writeChunks str strpos heads) s
  | strpos, [], s => by
    by_cases hs : strpos < str.length
    · rw [toWriterLoop, if_pos hs, writeChunks, if_pos hs]
      rcases hw : out.write s (str.drop strpos) with ⟨s', n, _ | e⟩
      · rw [feed_cons_of_write hw]
        rfl
      · rw [feed_cons_of_error hw]
    · rw [toWriterLoop, if_neg hs, writeChunks, if_neg hs]
      rfl
  | strpos, head :: heads, s => by
    -- the header, then the rest of the loop
    have hhead : ∀ (s₁ : σ) (p : Nat), (match out.write s₁ (puthead 0xC0 0xF7 head.size) with
        | (s, _, some e) => (s, some e)
        | (s, _, none) => toWriterLoop out str p heads s) =
        out.feed (puthead 0xC0 0xF7 head.size :: writeChunks str p heads) s₁ := by
      intro s₁ p
      rcases hw : out.write s₁ (puthead 0xC0 0xF7 head.size) with ⟨s', n, _ | e⟩
      · rw [feed_cons_of_write hw]
        exact toWriterLoop_eq_feed out str p heads s'
      · rw [feed_cons_of_error hw]
    by_cases hb : head.offset - strpos > 0
    · -- the string data before the header is a chunk of its own
      have hchunks : writeChunks str strpos (head :: heads) =
          (str.drop strpos).take (head.offset - strpos) :: puthead 0xC0 0xF7 head.size ::
            writeChunks str (strpos + ((str.drop strpos).take (head.offset - strpos)).length) heads := by
        simp only [writeChunks, if_pos hb, List.singleton_append]
      rw [hchunks, toWriterLoop, if_pos hb]
      rcases hw : out.write s ((str.drop strpos).take (head.offset - strpos)) with ⟨s', n, _ | e⟩
      · have hn : n = ((str.drop strpos).take (head.offset - strpos)).length := by
          have := out.write_all s ((str.drop strpos).take (head.offset - strpos))
          rw [hw] at this
          exact this rfl
        rw [feed_cons_of_write hw, ← hhead, ← hn]
      · rw [feed_cons_of_error hw]
    · have hz : head.offset - strpos = 0 := by omega
      have hchunks : writeChunks str strpos (head :: heads) =
          puthead 0xC0 0xF7 head.size :: writeChunks str strpos heads := by
        simp only [writeChunks, hz, gt_iff_lt, lt_self_iff_false, if_false, List.nil_append,
          List.take_zero, List.length_nil, Nat.add_zero]
      rw [hchunks, toWriterLoop, if_neg hb, ← hhead]

/-- The chunks put together are what `toBytes` assembles. -/
theorem flatten_writeChunks (str : List UInt8) :
    ∀ (strpos : Nat) (heads : List ListHead),
      (writeChunks str strpos heads).flatten = toBytesLoop str strpos heads
  | strpos, [] => by
    by_cases hs : strpos < str.length
    · simp [writeChunks, toBytesLoop, hs]
    · simp [writeChunks, toBytesLoop, hs, List.drop_eq_nil_of_le (Nat.le_of_not_lt hs)]
  | strpos, head :: heads => by
    by_cases hb : head.offset - strpos > 0
    · simp only [writeChunks, toBytesLoop, if_pos hb, List.singleton_append, List.flatten_cons,
        flatten_writeChunks str _ heads, List.append_assoc]
    · have hz : head.offset - strpos = 0 := by omega
      simp only [writeChunks, toBytesLoop, hz, gt_iff_lt, lt_self_iff_false, if_false,
        List.nil_append, List.flatten_cons, flatten_writeChunks str _ heads, List.take_zero]

end ToWriterSpec

/-! ## `EncodeToReader` -/

/-- `encReader`: the buffer, `none` once at `io.EOF`; the index of the next list header; the
position in the string data; and the piece a read has not taken all of. -/
structure EncReader where
  buf : Option EncBuf
  lhpos : Nat
  strpos : Nat
  piece : Option (List UInt8)
  deriving DecidableEq, Repr

/-- `r.next()`: the next piece to read, `none` at the end. -/
def EncReader.next (r : EncReader) : Option (List UInt8) × EncReader :=
  match r.buf, r.piece with
  | none, _ => (none, r)
  | some _, some piece => (some piece, r)
  | some buf, none =>
    match buf.lheads[r.lhpos]? with
    | some head =>
      let sizebefore := head.offset - r.strpos
      if sizebefore > 0 then
        -- string data before the header
        (some ((buf.str.drop r.strpos).take (head.offset - r.strpos)),
          { r with strpos := r.strpos + sizebefore })
      else (some (puthead 0xC0 0xF7 head.size), { r with lhpos := r.lhpos + 1 })
    | none =>
      -- string data after the last header
      if r.strpos < buf.str.length then
        (some (buf.str.drop r.strpos), { r with strpos := buf.str.length })
      else (none, r)

/-- The pieces a reader has left, which bounds the rounds of the loop of `Read`. -/
def EncReader.pending (r : EncReader) : Nat :=
  match r.buf with
  | none => 0
  | some buf =>
    (buf.lheads.length - r.lhpos) + (buf.str.length - r.strpos) + if r.piece.isSome then 1 else 0

/-- The loop of `r.Read(b)` for a buffer `b` of `size` bytes, with the bytes `out` copied so
far: the result, whether it is `io.EOF`, and the reader after it. -/
def readLoop (size : Nat) : Nat → List UInt8 → EncReader → List UInt8 × Bool × EncReader
  | 0, out, r => (out, false, r)
  | fuel + 1, out, r =>
    match r.next with
    | (none, r) => (out, true, { r with piece := none, buf := none })
    | (some piece, r) =>
      let nn := min (size - out.length) piece.length
      if nn < piece.length then
        -- the piece did not fit: keep the rest for the next read
        (out ++ piece.take nn, false, { r with piece := some (piece.drop nn) })
      else readLoop size fuel (out ++ piece) { r with piece := none }

/-- `r.Read(b)` for a buffer of `size` bytes. -/
def EncReader.read (r : EncReader) (size : Nat) : List UInt8 × Bool × EncReader :=
  readLoop size (r.pending + 1) [] r

/-- `EncodeToReader(t)`: the size of the encoding and the reader. -/
def encodeToReader (t : Item) : Nat × EncReader :=
  let w := writeItem t EncBuf.empty
  (w.size, ⟨some w, 0, 0, none⟩)

/-- Successive calls `Read` with buffers of the given sizes: what each returned and whether it
returned `io.EOF`. -/
def readAll : List Nat → EncReader → List (List UInt8 × Bool)
  | [], _ => []
  | m :: ms, r =>
    match r.read m with
    | (chunk, eof, r) => (chunk, eof) :: readAll ms r

/-! ## What a reader has left -/

/-- What successive reads of buffers of the given sizes return from a source holding `bytes`:
as many of the bytes left as fit, and `io.EOF` when none remain after them. -/
def readsOf : List UInt8 → List Nat → List (List UInt8 × Bool)
  | _, [] => []
  | bytes, m :: ms => (bytes.take m, decide (bytes.length ≤ m)) :: readsOf (bytes.drop m) ms

/-- The reads put together are the bytes as far as the buffers reached. -/
theorem flatten_readsOf : ∀ (bytes : List UInt8) (ms : List Nat),
    ((readsOf bytes ms).map Prod.fst).flatten = bytes.take ms.sum
  | bytes, [] => by simp [readsOf]
  | bytes, m :: ms => by
    simp only [readsOf, List.map_cons, List.flatten_cons, flatten_readsOf, List.sum_cons,
      List.take_add]

/-- The bytes a reader has still to return: the rest of its piece, then the string data from
`strpos` with the headers from `lhpos` put in. -/
def EncReader.rest (r : EncReader) : List UInt8 :=
  match r.buf with
  | none => []
  | some buf => r.piece.getD [] ++ toBytesLoop buf.str r.strpos (buf.lheads.drop r.lhpos)

/-- A reader whose headers left lie in order within the string data from `strpos`, and whose
piece is not empty. -/
structure EncReader.Wf (r : EncReader) : Prop where
  heads : ∀ buf, r.buf = some buf → HeadsIn r.strpos buf.str.length (buf.lheads.drop r.lhpos)
  piece : ∀ p, r.piece = some p → p ≠ []

/-- What taking the piece `p` that `next` returned leaves: the reader `r'` without a piece,
holding the bytes after `p`, still well formed and with fewer pieces left. -/
structure NextOk (r : EncReader) (p : List UInt8) (r' : EncReader) : Prop where
  ne_nil : p ≠ []
  rest : r.rest = p ++ { r' with piece := none }.rest
  buf : r'.buf.isSome
  wf : ({ r' with piece := none } : EncReader).Wf
  pending : ({ r' with piece := none } : EncReader).pending < r.pending

theorem puthead_ne_nil (smalltag largetag : UInt8) (size : Nat) : puthead smalltag largetag size ≠ [] := by
  unfold puthead
  split <;> simp

section Next

variable {buf : EncBuf} {lhpos strpos : Nat}

theorem nextOk_piece {q : List UInt8} (hr : EncReader.Wf ⟨some buf, lhpos, strpos, some q⟩) :
    NextOk ⟨some buf, lhpos, strpos, some q⟩ q ⟨some buf, lhpos, strpos, some q⟩ where
  ne_nil := hr.piece q rfl
  rest := rfl
  buf := rfl
  wf := ⟨hr.heads, by simp⟩
  pending := by simp [EncReader.pending]

/-- The string data before the next header. -/
theorem nextOk_before {head : ListHead} (hl : buf.lheads[lhpos]? = some head)
    (hb : head.offset - strpos > 0) (hh : HeadsIn strpos buf.str.length (buf.lheads.drop lhpos)) :
    NextOk ⟨some buf, lhpos, strpos, none⟩ ((buf.str.drop strpos).take (head.offset - strpos))
      ⟨some buf, lhpos, strpos + (head.offset - strpos), none⟩ := by
  have hdrop : buf.lheads.drop lhpos = head :: buf.lheads.drop (lhpos + 1) := by
    obtain ⟨hlt, rfl⟩ := List.getElem?_eq_some_iff.mp hl
    exact List.drop_eq_getElem_cons hlt
  rw [hdrop] at hh
  obtain ⟨hlo, hhi, hrest⟩ := hh
  have hoff : strpos + (head.offset - strpos) = head.offset := by omega
  have hlen : ((buf.str.drop strpos).take (head.offset - strpos)).length = head.offset - strpos := by
    simp only [List.length_take, List.length_drop]
    omega
  refine ⟨List.ne_nil_of_length_pos (by omega), ?_, rfl, ⟨?_, by simp⟩, ?_⟩
  · simp only [EncReader.rest, Option.getD_none, List.nil_append, hdrop, toBytesLoop, hlen, hoff,
      Nat.sub_self, List.take_zero, List.length_nil, Nat.add_zero, List.append_assoc]
  · intro b hb'
    cases hb'
    rw [hoff, hdrop]
    exact ⟨le_rfl, hhi, hrest⟩
  · simp only [EncReader.pending, Option.isSome_none]
    omega

/-- The next header, when no string data comes before it. -/
theorem nextOk_head {head : ListHead} (hl : buf.lheads[lhpos]? = some head)
    (hb : ¬ head.offset - strpos > 0) (hh : HeadsIn strpos buf.str.length (buf.lheads.drop lhpos)) :
    NextOk ⟨some buf, lhpos, strpos, none⟩ (puthead 0xC0 0xF7 head.size)
      ⟨some buf, lhpos + 1, strpos, none⟩ := by
  obtain ⟨hlt, hget⟩ := List.getElem?_eq_some_iff.mp hl
  have hdrop : buf.lheads.drop lhpos = head :: buf.lheads.drop (lhpos + 1) := by
    rw [← hget]
    exact List.drop_eq_getElem_cons hlt
  rw [hdrop] at hh
  obtain ⟨hlo, hhi, hrest⟩ := hh
  -- the header is at `strpos`
  have hat : head.offset = strpos := by omega
  refine ⟨puthead_ne_nil _ _ _, ?_, rfl, ⟨?_, by simp⟩, ?_⟩
  · simp only [EncReader.rest, Option.getD_none, List.nil_append, hdrop, toBytesLoop, hat,
      Nat.sub_self, List.take_zero, List.length_nil, Nat.add_zero]
  · intro b hb'
    cases hb'
    rw [← hat]
    exact hrest
  · simp only [EncReader.pending, Option.isSome_none]
    omega

/-- The string data after the last header. -/
theorem nextOk_tail (hl : buf.lheads[lhpos]? = none) (hs : strpos < buf.str.length) :
    NextOk ⟨some buf, lhpos, strpos, none⟩ (buf.str.drop strpos)
      ⟨some buf, lhpos, buf.str.length, none⟩ := by
  have hdrop : buf.lheads.drop lhpos = [] := List.drop_eq_nil_of_le (List.getElem?_eq_none_iff.mp hl)
  refine ⟨List.ne_nil_of_length_pos (by simp; omega), ?_, rfl, ⟨?_, by simp⟩, ?_⟩
  · simp [EncReader.rest, hdrop, toBytesLoop]
  · intro b hb'
    cases hb'
    rw [hdrop]
    trivial
  · simp only [EncReader.pending, Option.isSome_none]
    omega

end Next

/-- A piece `next` returns is the first of the bytes left. -/
theorem next_some {r r' : EncReader} {p : List UInt8} (hr : r.Wf) (h : r.next = (some p, r')) :
    NextOk r p r' := by
  obtain ⟨_ | buf, lhpos, strpos, _ | q⟩ := r
  · simp [EncReader.next] at h
  · simp [EncReader.next] at h
  · have hh := hr.heads buf rfl
    -- the three branches of `next` after the piece
    cases hl : buf.lheads[lhpos]? with
    | some head =>
      by_cases hb : head.offset - strpos > 0
      · simp only [EncReader.next, hl, if_pos hb, Prod.mk.injEq, Option.some.injEq] at h
        obtain ⟨rfl, rfl⟩ := h
        exact nextOk_before hl hb hh
      · simp only [EncReader.next, hl, if_neg hb, Prod.mk.injEq, Option.some.injEq] at h
        obtain ⟨rfl, rfl⟩ := h
        exact nextOk_head hl hb hh
    | none =>
      by_cases hs : strpos < buf.str.length
      · simp only [EncReader.next, hl, if_pos hs, Prod.mk.injEq, Option.some.injEq] at h
        obtain ⟨rfl, rfl⟩ := h
        exact nextOk_tail hl hs
      · simp [EncReader.next, hl, if_neg hs] at h
  · simp only [EncReader.next, Prod.mk.injEq, Option.some.injEq] at h
    obtain ⟨rfl, rfl⟩ := h
    exact nextOk_piece hr

/-- When `next` has nothing, no byte is left. -/
theorem next_none {r r' : EncReader} (h : r.next = (none, r')) : r.rest = [] ∧ r' = r := by
  obtain ⟨_ | buf, lhpos, strpos, _ | q⟩ := r
  · simp only [EncReader.next, Prod.mk.injEq, true_and] at h
    exact ⟨rfl, h.symm⟩
  · simp only [EncReader.next, Prod.mk.injEq, true_and] at h
    exact ⟨rfl, h.symm⟩
  · cases hl : buf.lheads[lhpos]? with
    | some head =>
      simp only [EncReader.next, hl] at h
      split_ifs at h <;> simp at h
    | none =>
      by_cases hs : strpos < buf.str.length
      · simp [EncReader.next, hl, if_pos hs] at h
      · simp only [EncReader.next, hl, if_neg hs, Prod.mk.injEq, true_and] at h
        have hdrop : buf.lheads.drop lhpos = [] :=
          List.drop_eq_nil_of_le (List.getElem?_eq_none_iff.mp hl)
        refine ⟨?_, h.symm⟩
        simp [EncReader.rest, hdrop, toBytesLoop, List.drop_eq_nil_of_le (Nat.le_of_not_lt hs)]
  · simp [EncReader.next] at h

/-! ## `Read` -/

/-- What a read of a buffer of `size` bytes returns from a reader holding `bytes`: the first
`size` of them, `io.EOF` when none remain after them, and a well-formed reader holding the
others. -/
structure ReadsFrom (bytes : List UInt8) (size : Nat) (res : List UInt8 × Bool × EncReader) :
    Prop where
  chunk : res.1 = bytes.take size
  eof : res.2.1 = decide (bytes.length ≤ size)
  rest : res.2.2.rest = bytes.drop size
  wf : res.2.2.Wf

/-- The loop of `Read`, by induction on its bound: each round that goes on copies a whole piece,
which leaves fewer pieces, so the bound `pending` is never reached. -/
theorem readLoop_spec (size : Nat) : ∀ (fuel : Nat) (out : List UInt8) (r : EncReader),
    r.Wf → r.pending < fuel → out.length ≤ size →
      ReadsFrom (out ++ r.rest) size (readLoop size fuel out r)
  | 0, _, _, _, hp, _ => absurd hp (Nat.not_lt_zero _)
  | fuel + 1, out, r, hr, hp, hout => by
    rcases hn : r.next with ⟨_ | p, r'⟩
    · -- nothing left: `io.EOF`, and the buffer is let go
      obtain ⟨hrest, rfl⟩ := next_none hn
      simp only [readLoop, hn, hrest, List.append_nil]
      refine ⟨(List.take_of_length_le hout).symm, by simp [hout], ?_, ⟨by simp, by simp⟩⟩
      simp [EncReader.rest, List.drop_eq_nil_of_le hout]
    · have hok := next_some hr hn
      have hR : out ++ r.rest = out ++ p ++ { r' with piece := none }.rest := by
        rw [hok.rest, List.append_assoc]
      obtain ⟨buf, hbuf⟩ := Option.isSome_iff_exists.mp hok.buf
      simp only [readLoop, hn]
      by_cases hfit : min (size - out.length) p.length < p.length
      · -- the buffer is full within the piece: `k` bytes of it are taken
        rw [if_pos hfit]
        obtain ⟨k, rfl⟩ : ∃ k, size = out.length + k := ⟨size - out.length, by omega⟩
        have hk : min (out.length + k - out.length) p.length = k := by omega
        have hkp : k < p.length := by omega
        rw [hk]
        have hleft : ({ r' with piece := some (p.drop k) } : EncReader).rest =
            p.drop k ++ ({ r' with piece := none } : EncReader).rest := by
          simp [EncReader.rest, hbuf]
        refine ⟨?_, ?_, ?_, ⟨hok.wf.heads, fun q hq => ?_⟩⟩
        · show out ++ p.take k = (out ++ r.rest).take (out.length + k)
          rw [hR, List.append_assoc, List.take_append, List.take_of_length_le (Nat.le_add_right _ k),
            Nat.add_sub_cancel_left, List.take_append_of_le_length hkp.le]
        · show false = decide ((out ++ r.rest).length ≤ out.length + k)
          rw [hR]
          simp only [List.length_append]
          exact (decide_eq_false (by omega)).symm
        · show ({ r' with piece := some (p.drop k) } : EncReader).rest =
            (out ++ r.rest).drop (out.length + k)
          rw [hleft, hR, List.append_assoc, List.drop_append,
            List.drop_of_length_le (Nat.le_add_right _ k), List.nil_append, Nat.add_sub_cancel_left,
            List.drop_append_of_le_length hkp.le]
        · -- the rest of the piece is not empty
          simp only [Option.some.injEq] at hq
          subst hq
          exact List.ne_nil_of_length_pos (by simp; omega)
      · -- the piece fits: copy all of it and go on
        rw [if_neg hfit, hR]
        exact readLoop_spec size fuel (out ++ p) _ hok.wf (by have := hok.pending; omega)
          (by simp; omega)

/-- `Read` returns the first bytes left, as many as fit. -/
theorem read_spec {r : EncReader} (hr : r.Wf) (size : Nat) : ReadsFrom r.rest size (r.read size) :=
  readLoop_spec size _ [] r hr (Nat.lt_succ_self _) (Nat.zero_le _)

/-- Successive reads return the bytes left piece by piece, by induction on the reads. -/
theorem readAll_eq : ∀ (ms : List Nat) {r : EncReader}, r.Wf → readAll ms r = readsOf r.rest ms
  | [], _, _ => rfl
  | m :: ms, r, hr => by
    have h := read_spec hr m
    rcases hres : r.read m with ⟨chunk, eof, r'⟩
    rw [hres] at h
    obtain ⟨hchunk, heof, hrest, hwf⟩ := h
    dsimp only at hchunk heof hrest hwf
    simp only [readAll, hres, readsOf]
    rw [readAll_eq ms hwf, hrest, hchunk, heof]

/-! ## The reader of an encoding -/

/-- The reader `EncodeToReader` gives holds the encoding, and is well formed. -/
theorem encodeToReader_spec (t : Item) :
    (encodeToReader t).1 = t.encode.length ∧ (encodeToReader t).2.rest = t.encode ∧
      (encodeToReader t).2.Wf := by
  obtain ⟨seg, hs, k, heq, hin, -, hlen⟩ := writes_writeItem t EncBuf.empty
  have hw : writeItem t EncBuf.empty = ⟨seg, hs, k⟩ := by simpa [EncBuf.empty] using heq
  simp only [EncBuf.empty, List.length_nil, Nat.zero_add] at hin
  have hbytes := encodeToBytes_eq_encode t
  simp only [encodeToBytes, EncBuf.toBytes] at hbytes
  refine ⟨?_, ?_, ⟨fun b hb => ?_, by simp [encodeToReader]⟩⟩
  · simp only [encodeToReader, EncBuf.size, hw]
    omega
  · simp only [encodeToReader, EncReader.rest, Option.getD_none, List.nil_append, List.drop_zero,
      hbytes]
  · simp only [encodeToReader, Option.some.injEq] at hb
    subst hb
    simpa [encodeToReader, hw] using hin

/-- `EncodeToBytes`, `Encode` on any writer and `EncodeToReader` read with any buffer sizes give
the encoding of the item: `Encode` hands every writer the same chunks, which put together are
the encoding, and the reads return the encoding piece by piece, each as much as fits, with
`io.EOF` on the read that reaches its end. -/
theorem encode_outputs_agree (t : Item) :
    encodeToBytes t = t.encode ∧
    (∃ chunks : List (List UInt8), chunks.flatten = t.encode ∧
      ∀ {σ E : Type} (out : Writer σ E) (s : σ), encode out t s = out.feed chunks s) ∧
    (encodeToReader t).1 = t.encode.length ∧
    ∀ ms : List Nat, readAll ms (encodeToReader t).2 = readsOf t.encode ms ∧
      ((readAll ms (encodeToReader t).2).map Prod.fst).flatten = t.encode.take ms.sum := by
  obtain ⟨hsize, hrest, hwf⟩ := encodeToReader_spec t
  have hreads : ∀ ms, readAll ms (encodeToReader t).2 = readsOf t.encode ms := fun ms => by
    rw [readAll_eq ms hwf, hrest]
  refine ⟨encodeToBytes_eq_encode t, ⟨writeChunks (writeItem t EncBuf.empty).str 0
    (writeItem t EncBuf.empty).lheads, ?_, fun out s => toWriterLoop_eq_feed out _ 0 _ s⟩, hsize,
    fun ms => ⟨hreads ms, by rw [hreads ms, flatten_readsOf]⟩⟩
  rw [flatten_writeChunks, ← encodeToBytes_eq_encode]
  rfl

end GoMetadium.Rlp
