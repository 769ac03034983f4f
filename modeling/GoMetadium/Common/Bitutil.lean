import Mathlib
import GoMetadium.Lib.Except

set_option autoImplicit false

/-! # Sparse bitset compression (`common/bitutil/compress.go`)

`bitsetEncodeBytes` writes a byte string of length `n ≥ 2` as the encoding of its
*nonzero bitset*, `(n+7)/8` bytes whose bit `i` (most significant first) is set when byte `i`
is nonzero, followed by the nonzero bytes in order. The bitset is encoded the same way, so
the encoder and the decoder both recurse on a length that goes from `n` to `(n+7)/8`. Strings
of length one stay as they are and strings of zeros become empty.

`CompressBytes` keeps the encoding only when it is shorter; `DecompressBytes` knows the
original length and reads a string of that length as uncompressed. The main result is the
round trip: every string comes back from its compression (`compressBytes_roundTrip`). Its
core is `bitsetDecodePartialBytes_encode`: the partial decoder, run on an encoding followed by
anything, returns the string and the length of the encoding. It is proved by strong induction
on the length, with the decoder's bit loop read against the state `loopState`.
-/

namespace GoMetadium.Bitutil

/-- The errors of `DecompressBytes`. -/
inductive DecompressError where
  | missingData
  | unreferencedData
  | exceededTarget
  | zeroContent
  deriving DecidableEq, Repr

/-! ## Bits of a bitset -/

/-- `1 << byte(7-i%8)`: the bit of position `i` within its byte, most significant first. -/
def bitMask (i : Nat) : UInt8 := 1 <<< UInt8.ofNat (7 - i % 8)

/-- `bs[i/8]&(1<<byte(7-i%8)) != 0`, with the bytes past the end of `bs` read as zero. -/
def bitAt (bs : List UInt8) (i : Nat) : Bool := bs.getD (i / 8) 0 &&& bitMask i != 0

theorem bitMask_mod (i : Nat) : bitMask (i % 8) = bitMask i := by
  rw [bitMask, bitMask, Nat.mod_mod]

/-- Setting the bit of `i` in a byte sets the bit of `j` exactly when it was set or `i` and `j`
are the same position of a byte; checked over the 256 bytes and 64 pairs of positions. -/
theorem bitMask_or_and (x : UInt8) (i j : Nat) :
    ((x ||| bitMask i) &&& bitMask j != 0) = (x &&& bitMask j != 0 || decide (i % 8 = j % 8)) := by
  have hbyte : ∀ x : UInt8, ∀ a < 8, ∀ b < 8,
      ((x ||| bitMask a) &&& bitMask b != 0) = (x &&& bitMask b != 0 || decide (a = b)) := by
    decide +kernel
  rw [← bitMask_mod i, ← bitMask_mod j]
  exact hbyte x (i % 8) (Nat.mod_lt i (by decide)) (j % 8) (Nat.mod_lt j (by decide))

theorem bitAt_replicate_zero (n j : Nat) : bitAt (List.replicate n 0) j = false := by
  have hbyte : (List.replicate n (0 : UInt8)).getD (j / 8) 0 = 0 := by
    rw [List.getD_eq_getElem?_getD, List.getElem?_replicate]
    split_ifs <;> rfl
  rw [bitAt, hbyte, UInt8.zero_and]
  rfl

/-- OR-ing the mask of `i` into its byte sets the bit of `i` and no other. -/
theorem bitAt_set_or {bs : List UInt8} {i : Nat} (hi : i / 8 < bs.length) (j : Nat) :
    bitAt (bs.set (i / 8) (bs.getD (i / 8) 0 ||| bitMask i)) j = (bitAt bs j || decide (j = i)) := by
  unfold bitAt
  by_cases hdiv : i / 8 = j / 8
  · -- the byte that changes: the two positions are equal exactly when they are in it alike
    have hpos : (i % 8 = j % 8) ↔ j = i := by omega
    rw [← hdiv, List.getD_eq_getElem?_getD, List.getElem?_set_self hi, Option.getD_some,
      bitMask_or_and]
    simp only [hpos]
  · have hne : j ≠ i := fun h => hdiv (h ▸ rfl)
    rw [List.getD_eq_getElem?_getD, List.getElem?_set_ne hdiv, ← List.getD_eq_getElem?_getD]
    simp [hne]

/-- A set bit lies in a nonzero byte of the bitset. -/
theorem exists_ne_zero_of_bitAt {bs : List UInt8} {i : Nat} (h : bitAt bs i = true) :
    ∃ b ∈ bs, b ≠ 0 := by
  unfold bitAt at h
  rw [List.getD_eq_getElem?_getD] at h
  cases hget : bs[i / 8]? with
  | none => simp [hget] at h
  | some b =>
    refine ⟨b, List.mem_of_getElem? hget, ?_⟩
    rintro rfl
    simp [hget] at h

/-! ## The encoder -/

/-- One round of the loop of `bitsetEncodeBytes`, at the byte `b` of position `i`: a nonzero
byte sets its bit in `nonZeroBitset` and joins `nonZeroBytes`. -/
def encodeStep (acc : List UInt8 × List UInt8) (bi : UInt8 × Nat) : List UInt8 × List UInt8 :=
  if bi.1 ≠ 0 then
    (acc.1.set (bi.2 / 8) (acc.1.getD (bi.2 / 8) 0 ||| bitMask bi.2), acc.2 ++ [bi.1])
  else acc

/-- The loop of `bitsetEncodeBytes`: `nonZeroBitset`, of `(len(data)+7)/8` bytes, and
`nonZeroBytes`. -/
def nonZeroParts (data : List UInt8) : List UInt8 × List UInt8 :=
  data.zipIdx.foldl encodeStep (List.replicate ((data.length + 7) / 8) 0, [])

/-- One round sets the bit of position `k` and appends `b` when `b` is nonzero. -/
theorem encodeStep_spec (acc : List UInt8 × List UInt8) (b : UInt8) {k : Nat}
    (hk : k / 8 < acc.1.length) :
    (encodeStep acc (b, k)).1.length = acc.1.length ∧
      (encodeStep acc (b, k)).2 = acc.2 ++ [b].filter (· ≠ 0) ∧
      ∀ j, bitAt (encodeStep acc (b, k)).1 j = (bitAt acc.1 j || (decide (j = k) && b != 0)) := by
  by_cases hb : b = 0
  · subst hb
    simp [encodeStep]
  · simp only [encodeStep, if_pos hb]
    refine ⟨List.length_set .., by simp [hb], fun j => ?_⟩
    have hb' : (b != 0) = true := bne_iff_ne.mpr hb
    rw [bitAt_set_or hk, hb', Bool.and_true]

/-- The loop over the bytes `l` from position `k`: it keeps the bitset's length, appends the
nonzero bytes, and sets the bits of the nonzero positions; by induction on `l`. -/
theorem foldl_encodeStep (l : List UInt8) :
    ∀ (k : Nat) (acc : List UInt8 × List UInt8),
      (∀ j, k ≤ j → j < k + l.length → j / 8 < acc.1.length) →
      ((l.zipIdx k).foldl encodeStep acc).1.length = acc.1.length ∧
      ((l.zipIdx k).foldl encodeStep acc).2 = acc.2 ++ l.filter (· ≠ 0) ∧
      ∀ j, bitAt ((l.zipIdx k).foldl encodeStep acc).1 j =
        (bitAt acc.1 j || (decide (k ≤ j) && l.getD (j - k) 0 != 0)) := by
  induction l with
  | nil =>
    intro k acc _
    simp
  | cons b l ih =>
    intro k acc hbound
    have hk : k / 8 < acc.1.length := hbound k (Nat.le_refl k) (by simp)
    obtain ⟨hlen1, hnz1, hbits1⟩ := encodeStep_spec acc b hk
    -- the rest of the loop runs from position `k + 1` on the state after `b`
    have hbound' : ∀ j, k + 1 ≤ j → j < k + 1 + l.length →
        j / 8 < (encodeStep acc (b, k)).1.length := by
      intro j hj1 hj2
      rw [hlen1]
      exact hbound j (by omega) (by rw [List.length_cons]; omega)
    obtain ⟨hlen, hnz, hbits⟩ := ih (k + 1) (encodeStep acc (b, k)) hbound'
    -- position `k` is `b`, and the positions after it are those of `l`
    have hpos : ∀ j, (decide (k ≤ j) && (b :: l).getD (j - k) 0 != 0) =
        (decide (j = k) && b != 0 || (decide (k + 1 ≤ j) && l.getD (j - (k + 1)) 0 != 0)) := by
      intro j
      by_cases hjk : j = k
      · subst hjk
        simp
      · by_cases hkj : k ≤ j
        · have hsub : j - k = j - (k + 1) + 1 := by omega
          simp [hjk, hkj, hsub, show k + 1 ≤ j by omega]
        · simp [hjk, hkj, show ¬ k + 1 ≤ j by omega]
    rw [List.zipIdx_cons, List.foldl_cons]
    refine ⟨by rw [hlen, hlen1], ?_, fun j => ?_⟩
    · rw [hnz, hnz1, List.append_assoc, ← List.filter_append, List.singleton_append]
    · rw [hbits j, hbits1 j, hpos j, Bool.or_assoc]

theorem nonZeroParts_spec (data : List UInt8) :
    (nonZeroParts data).1.length = (data.length + 7) / 8 ∧
      (nonZeroParts data).2 = data.filter (· ≠ 0) ∧
      ∀ j, bitAt (nonZeroParts data).1 j = (data.getD j 0 != 0) := by
  have hbound : ∀ j, 0 ≤ j → j < 0 + data.length →
      j / 8 < (List.replicate ((data.length + 7) / 8) (0 : UInt8)).length := by
    intro j _ hj
    rw [List.length_replicate]
    omega
  obtain ⟨hlen, hnz, hbits⟩ := foldl_encodeStep data 0 (_, []) hbound
  refine ⟨by rw [nonZeroParts, hlen, List.length_replicate], by rw [nonZeroParts, hnz, List.nil_append],
    fun j => ?_⟩
  rw [nonZeroParts, hbits j, bitAt_replicate_zero]
  simp

theorem length_nonZeroParts (data : List UInt8) :
    (nonZeroParts data).1.length = (data.length + 7) / 8 :=
  (nonZeroParts_spec data).1

/-- `bitsetEncodeBytes`: empty for a string of zeros, the byte itself for one byte, and
otherwise the encoding of `nonZeroBitset` followed by `nonZeroBytes`. The recursion is on a
string of `(n+7)/8 < n` bytes. -/
def bitsetEncodeBytes (data : List UInt8) : List UInt8 :=
  if data.length = 0 then []
  else if data.length = 1 then
    if data.headD 0 = 0 then [] else data
  else
    if (nonZeroParts data).2.length = 0 then []
    else bitsetEncodeBytes (nonZeroParts data).1 ++ (nonZeroParts data).2
termination_by data.length
decreasing_by
  rw [length_nonZeroParts]
  omega

/-- `CompressBytes`: the encoding when it is shorter, and the string itself otherwise. -/
def compressBytes (data : List UInt8) : List UInt8 :=
  if (bitsetEncodeBytes data).length < data.length then bitsetEncodeBytes data else data

/-! ## The decoder -/

/-- One round of the loop of `bitsetDecodePartialBytes`, at position `i` of the bitset: a set
bit takes the next byte of `data`, which must exist, fall inside the target and be nonzero. -/
def decodeStep (data nonZeroBitset : List UInt8) (st : List UInt8 × Nat) (i : Nat) :
    Except DecompressError (List UInt8 × Nat) :=
  if bitAt nonZeroBitset i then
    if st.2 ≥ data.length then .error .missingData
    else if i ≥ st.1.length then .error .exceededTarget
    else if data.getD st.2 0 = 0 then .error .zeroContent
    else .ok (st.1.set i (data.getD st.2 0), st.2 + 1)
  else .ok st

/-- `bitsetDecodePartialBytes`: the `target` bytes that a prefix of `data` encodes, and the
length of that prefix. The recursion decodes the bitset, of `(target+7)/8 < target` bytes. -/
def bitsetDecodePartialBytes (data : List UInt8) (target : Nat) :
    Except DecompressError (List UInt8 × Nat) :=
  if target = 0 then .ok ([], 0)
  else if data.length = 0 then .ok (List.replicate target 0, 0)
  else if target = 1 then
    -- `decomp[0] = data[0]`, and the byte is consumed only when it is nonzero
    if data.headD 0 ≠ 0 then .ok ([data.headD 0], 1) else .ok ([data.headD 0], 0)
  else do
    let (nonZeroBitset, ptr) ← bitsetDecodePartialBytes data ((target + 7) / 8)
    (List.range (8 * nonZeroBitset.length)).foldlM (decodeStep data nonZeroBitset)
      (List.replicate target 0, ptr)
termination_by target
decreasing_by omega

/-- `bitsetDecodeBytes`: the partial decoder, which must consume all of `data`. -/
def bitsetDecodeBytes (data : List UInt8) (target : Nat) : Except DecompressError (List UInt8) := do
  let (out, size) ← bitsetDecodePartialBytes data target
  if size ≠ data.length then throw .unreferencedData else pure out

/-- `DecompressBytes`: a string of the target length was not compressed. -/
def decompressBytes (data : List UInt8) (target : Nat) : Except DecompressError (List UInt8) :=
  if data.length > target then .error .exceededTarget
  else if data.length = target then .ok data
  else bitsetDecodeBytes data target

/-! ## What the encoder produces -/

/-- A string of zeros encodes to nothing. -/
theorem bitsetEncodeBytes_eq_nil {data : List UInt8} (h : ∀ b ∈ data, b = 0) :
    bitsetEncodeBytes data = [] := by
  rw [bitsetEncodeBytes]
  split_ifs with h0 h1 hhead hnz
  · rfl
  · rfl
  · -- one byte, which is a zero
    obtain ⟨b, rfl⟩ := List.length_eq_one_iff.mp h1
    exact absurd (h b List.mem_cons_self) hhead
  · rfl
  · have hfilter : (nonZeroParts data).2 = [] := by
      rw [(nonZeroParts_spec data).2.1, List.filter_eq_nil_iff]
      intro b hb
      simp [h b hb]
    exact absurd (by rw [hfilter]; rfl) hnz

theorem bitsetEncodeBytes_singleton {b : UInt8} (hb : b ≠ 0) : bitsetEncodeBytes [b] = [b] := by
  rw [bitsetEncodeBytes]
  simp [hb]

theorem filter_ne_nil {data : List UInt8} (hne : ∃ b ∈ data, b ≠ 0) :
    data.filter (· ≠ 0) ≠ [] := by
  obtain ⟨b, hb, hb0⟩ := hne
  intro h
  exact hb0 (by simpa using List.filter_eq_nil_iff.mp h b hb)

/-- Past the corner cases the encoding is the bitset's encoding and the nonzero bytes. -/
theorem bitsetEncodeBytes_of_two_le {data : List UInt8} (h2 : 2 ≤ data.length)
    (hne : ∃ b ∈ data, b ≠ 0) :
    bitsetEncodeBytes data = bitsetEncodeBytes (nonZeroParts data).1 ++ data.filter (· ≠ 0) := by
  have hnz := (nonZeroParts_spec data).2.1
  have hlen : (nonZeroParts data).2.length ≠ 0 := by
    rw [hnz, Ne, List.length_eq_zero_iff]
    exact filter_ne_nil hne
  rw [bitsetEncodeBytes, if_neg (by omega), if_neg (by omega), if_neg hlen, hnz]

/-- The bitset of a string with a nonzero byte has a nonzero byte. -/
theorem exists_ne_zero_nonZeroParts {data : List UInt8} (hne : ∃ b ∈ data, b ≠ 0) :
    ∃ b ∈ (nonZeroParts data).1, b ≠ 0 := by
  obtain ⟨b, hb, hb0⟩ := hne
  obtain ⟨i, hi, rfl⟩ := List.mem_iff_getElem.mp hb
  apply exists_ne_zero_of_bitAt (i := i)
  rw [(nonZeroParts_spec data).2.2 i, List.getD_eq_getElem?_getD, List.getElem?_eq_getElem hi,
    Option.getD_some]
  exact bne_iff_ne.mpr hb0

theorem bitsetEncodeBytes_ne_nil {data : List UInt8} (hne : ∃ b ∈ data, b ≠ 0) :
    bitsetEncodeBytes data ≠ [] := by
  obtain ⟨b, hb, hb0⟩ := hne
  by_cases h1 : data.length = 1
  · obtain ⟨c, rfl⟩ := List.length_eq_one_iff.mp h1
    obtain rfl := List.mem_singleton.mp hb
    rw [bitsetEncodeBytes_singleton hb0]
    exact List.cons_ne_nil b []
  · have h2 : 2 ≤ data.length := by
      have : 0 < data.length := List.length_pos_of_mem hb
      omega
    rw [bitsetEncodeBytes_of_two_le h2 ⟨b, hb, hb0⟩]
    exact List.append_ne_nil_of_right_ne_nil _ (filter_ne_nil ⟨b, hb, hb0⟩)

/-! ## The decoder's loop -/

theorem decodeStep_of_bitAt_false {data bs : List UInt8} {i : Nat} (st : List UInt8 × Nat)
    (h : bitAt bs i = false) : decodeStep data bs st i = .ok st := by
  rw [decodeStep, if_neg (by simp [h])]

/-- A set bit takes the next byte when it is there and nonzero, and the position is inside
the target. -/
theorem decodeStep_of_bitAt {data bs decomp : List UInt8} {ptr i : Nat} {v : UInt8}
    (h : bitAt bs i = true) (hv : data[ptr]? = some v) (hv0 : v ≠ 0) (hi : i < decomp.length) :
    decodeStep data bs (decomp, ptr) i = .ok (decomp.set i v, ptr + 1) := by
  have hptr : ptr < data.length := (List.getElem?_eq_some_iff.mp hv).1
  have hget : data.getD ptr 0 = v := by
    rw [List.getD_eq_getElem?_getD, hv, Option.getD_some]
  rw [decodeStep, if_pos h]
  dsimp only
  rw [if_neg (by omega), if_neg (by omega), hget, if_neg hv0]

/-- The decompressed bytes and the read pointer after the first `m` rounds of the loop, when
the bitset marks the nonzero bytes of `d` and those bytes start at `ptr₀`. -/
def loopState (d : List UInt8) (ptr₀ m : Nat) : List UInt8 × Nat :=
  (d.take m ++ List.replicate (d.length - m) 0, ptr₀ + ((d.take m).filter (· ≠ 0)).length)

theorem loopState_of_length_le {d : List UInt8} {ptr₀ m : Nat} (h : d.length ≤ m) :
    loopState d ptr₀ m = (d, ptr₀ + (d.filter (· ≠ 0)).length) := by
  rw [loopState, List.take_of_length_le h, Nat.sub_eq_zero_of_le h, List.replicate_zero,
    List.append_nil]

/-- The nonzero bytes of `d`, split at the byte `v` of position `m`. -/
theorem filter_eq_take_cons {d : List UInt8} {m : Nat} {v : UInt8} (hdm : d[m]? = some v)
    (hv0 : v ≠ 0) :
    d.filter (· ≠ 0) = (d.take m).filter (· ≠ 0) ++ v :: (d.drop (m + 1)).filter (· ≠ 0) := by
  obtain ⟨hm, hv⟩ := List.getElem?_eq_some_iff.mp hdm
  have hsplit : d = d.take m ++ v :: d.drop (m + 1) := by
    rw [← hv, ← List.drop_eq_getElem_cons hm, List.take_append_drop]
  conv_lhs => rw [hsplit]
  rw [List.filter_append, List.filter_cons_of_pos (by simpa using hv0)]

/-- One round of the loop goes from the state after `m` rounds to the state after `m + 1`. -/
theorem decodeStep_loopState {d pre rest bs : List UInt8}
    (hbits : ∀ j, bitAt bs j = (d.getD j 0 != 0)) (m : Nat) :
    decodeStep (pre ++ d.filter (· ≠ 0) ++ rest) bs (loopState d pre.length m) m =
      .ok (loopState d pre.length (m + 1)) := by
  cases hdm : d[m]? with
  | none =>
    -- past the end of `d`: no bit, and nothing left to fill
    have hlen : d.length ≤ m := List.getElem?_eq_none_iff.mp hdm
    have hbit : bitAt bs m = false := by
      rw [hbits, List.getD_eq_getElem?_getD, hdm]
      rfl
    rw [decodeStep_of_bitAt_false _ hbit, loopState_of_length_le hlen,
      loopState_of_length_le (Nat.le_succ_of_le hlen)]
  | some v =>
    have hm : m < d.length := (List.getElem?_eq_some_iff.mp hdm).1
    have htake : d.take (m + 1) = d.take m ++ [v] := by
      rw [List.take_add_one, hdm]
      rfl
    have hrep : List.replicate (d.length - m) (0 : UInt8) =
        0 :: List.replicate (d.length - (m + 1)) 0 := by
      rw [← List.replicate_succ]
      congr 1
      omega
    have hlenTake : (d.take m).length = m := List.length_take_of_le (Nat.le_of_lt hm)
    by_cases hv0 : v = 0
    · -- a zero byte: no bit, and the zero already stands in its place
      have hbit : bitAt bs m = false := by
        rw [hbits, List.getD_eq_getElem?_getD, hdm, Option.getD_some, hv0]
        rfl
      rw [decodeStep_of_bitAt_false _ hbit]
      simp [loopState, htake, hrep, hv0]
    · -- a nonzero byte: its bit is set and the next nonzero byte is `v`
      have hbit : bitAt bs m = true := by
        rw [hbits, List.getD_eq_getElem?_getD, hdm, Option.getD_some]
        exact bne_iff_ne.mpr hv0
      have hread : (pre ++ d.filter (· ≠ 0) ++ rest)[pre.length +
          ((d.take m).filter (· ≠ 0)).length]? = some v := by
        have hassoc : pre ++ ((d.take m).filter (· ≠ 0) ++ v :: (d.drop (m + 1)).filter (· ≠ 0)) ++
            rest = (pre ++ (d.take m).filter (· ≠ 0)) ++ v :: ((d.drop (m + 1)).filter (· ≠ 0) ++ rest) := by
          simp
        rw [filter_eq_take_cons hdm hv0, hassoc, List.getElem?_append_right (by simp),
          List.length_append, Nat.sub_self, List.getElem?_cons_zero]
      have hfit : m < (d.take m ++ List.replicate (d.length - m) 0).length := by
        simp only [List.length_append, List.length_replicate, hlenTake]
        omega
      rw [loopState, decodeStep_of_bitAt hbit hread hv0 hfit, hrep,
        List.set_append_right _ _ (by rw [hlenTake]), hlenTake, Nat.sub_self, List.set_cons_zero]
      simp [loopState, htake, hv0, Nat.add_assoc]

/-- The whole loop, by induction on the number of rounds. -/
theorem foldlM_decodeStep {d pre rest bs : List UInt8}
    (hbits : ∀ j, bitAt bs j = (d.getD j 0 != 0)) (m : Nat) :
    (List.range m).foldlM (decodeStep (pre ++ d.filter (· ≠ 0) ++ rest) bs)
        (List.replicate d.length 0, pre.length) = .ok (loopState d pre.length m) := by
  induction m with
  | zero =>
    simp [loopState]
    rfl
  | succ m ih =>
    rw [List.range_succ, List.foldlM_append, ih]
    simp only [bind, Except.bind, List.foldlM_cons, List.foldlM_nil]
    rw [decodeStep_loopState hbits m]
    rfl

/-! ## The round trip -/

/-- Past the corner cases the decoder decodes the bitset at the target `(t+7)/8`, below `t`,
and runs its loop from where the bitset's encoding ends. -/
theorem bitsetDecodePartialBytes_of_two_le {data : List UInt8} {t : Nat} (ht : 2 ≤ t)
    (hdata : data ≠ []) :
    bitsetDecodePartialBytes data t = (bitsetDecodePartialBytes data ((t + 7) / 8)).bind fun r =>
      (List.range (8 * r.1.length)).foldlM (decodeStep data r.1) (List.replicate t 0, r.2) := by
  rw [bitsetDecodePartialBytes, if_neg (by omega), if_neg (by simpa using hdata), if_neg (by omega)]
  rfl

/-- **The partial decoder inverts the encoder.** On the encoding of a string with a nonzero
byte, followed by anything, it returns the string and the length of the encoding. By strong
induction on the length: the bitset is shorter and has a nonzero byte, and the loop then reads
the nonzero bytes that follow its encoding. -/
theorem bitsetDecodePartialBytes_encode (n : Nat) :
    ∀ d rest : List UInt8, d.length = n → (∃ b ∈ d, b ≠ 0) →
      bitsetDecodePartialBytes (bitsetEncodeBytes d ++ rest) d.length =
        .ok (d, (bitsetEncodeBytes d).length) := by
  induction n using Nat.strong_induction_on with
  | _ n ih =>
  intro d rest hlen hne
  obtain ⟨b, hb, hb0⟩ := hne
  by_cases h1 : d.length = 1
  · -- one nonzero byte stands for itself
    obtain ⟨c, rfl⟩ := List.length_eq_one_iff.mp h1
    obtain rfl := List.mem_singleton.mp hb
    rw [bitsetEncodeBytes_singleton hb0, bitsetDecodePartialBytes]
    simp [hb0]
  · have h2 : 2 ≤ d.length := by
      have : 0 < d.length := List.length_pos_of_mem hb
      omega
    obtain ⟨hlenBits, hnz, hbits⟩ := nonZeroParts_spec d
    have hbitsNe := exists_ne_zero_nonZeroParts ⟨b, hb, hb0⟩
    have hlt : (nonZeroParts d).1.length < n := by
      rw [hlenBits, ← hlen]
      omega
    -- the bitset comes back first, followed by the nonzero bytes and `rest`
    have hbitset := ih _ hlt (nonZeroParts d).1 (d.filter (· ≠ 0) ++ rest) rfl hbitsNe
    rw [← List.append_assoc] at hbitset
    have hcover : d.length ≤ 8 * (nonZeroParts d).1.length := by
      rw [hlenBits]
      omega
    have hdata : bitsetEncodeBytes (nonZeroParts d).1 ++ d.filter (· ≠ 0) ++ rest ≠ [] :=
      List.append_ne_nil_of_left_ne_nil (List.append_ne_nil_of_left_ne_nil
        (bitsetEncodeBytes_ne_nil hbitsNe) _) _
    rw [bitsetEncodeBytes_of_two_le h2 ⟨b, hb, hb0⟩, bitsetDecodePartialBytes_of_two_le h2 hdata,
      ← hlenBits, hbitset]
    show (List.range (8 * (nonZeroParts d).1.length)).foldlM _ (List.replicate d.length 0, _) = _
    rw [foldlM_decodeStep hbits, loopState_of_length_le hcover, List.length_append]

/-- `bitsetDecodeBytes` succeeds when the partial decoder does and consumes all of `data`. -/
theorem bitsetDecodeBytes_eq_ok {data out : List UInt8} {target : Nat} :
    bitsetDecodeBytes data target = .ok out ↔
      bitsetDecodePartialBytes data target = .ok (out, data.length) := by
  rw [bitsetDecodeBytes, Except.bind_eq_ok]
  constructor
  · rintro ⟨⟨out', size⟩, hpart, hcheck⟩
    dsimp only at hcheck
    by_cases hsize : size = data.length
    · rw [if_neg (not_not.mpr hsize)] at hcheck
      cases hcheck
      rw [hpart, hsize]
    · rw [if_pos hsize] at hcheck
      cases hcheck
  · intro hpart
    refine ⟨(out, data.length), hpart, ?_⟩
    dsimp only
    rw [if_neg (not_not.mpr rfl)]
    rfl

/-- A string with a nonzero byte is decoded from its encoding, which it consumes whole. -/
theorem bitsetDecodeBytes_encode {d : List UInt8} (hne : ∃ b ∈ d, b ≠ 0) :
    bitsetDecodeBytes (bitsetEncodeBytes d) d.length = .ok d := by
  have h := bitsetDecodePartialBytes_encode d.length d [] rfl hne
  rw [List.append_nil] at h
  exact bitsetDecodeBytes_eq_ok.mpr h

/-- A nonempty string of zeros is decoded from the empty string. -/
theorem bitsetDecodeBytes_zeros {d : List UInt8} (h : ∀ b ∈ d, b = 0) (hpos : 0 < d.length) :
    bitsetDecodeBytes [] d.length = .ok d := by
  have hrep : List.replicate d.length (0 : UInt8) = d := (List.eq_replicate_iff.mpr ⟨rfl, h⟩).symm
  apply bitsetDecodeBytes_eq_ok.mpr
  rw [bitsetDecodePartialBytes, if_neg (by omega), if_pos List.length_nil, hrep]
  rfl

theorem compressBytes_length_le (d : List UInt8) : (compressBytes d).length ≤ d.length := by
  unfold compressBytes
  split_ifs with hshort
  · exact Nat.le_of_lt hshort
  · exact Nat.le_refl _

/-- The compressed form decompresses to the string at its length: the encoding when it was
kept, and the string itself, read as uncompressed, otherwise. -/
theorem decompressBytes_compressBytes (d : List UInt8) :
    decompressBytes (compressBytes d) d.length = .ok d := by
  unfold compressBytes
  split_ifs with hshort
  · rw [decompressBytes, if_neg (by omega), if_neg (by omega)]
    by_cases hne : ∃ b ∈ d, b ≠ 0
    · exact bitsetDecodeBytes_encode hne
    · have hzero : ∀ b ∈ d, b = 0 := fun b hb => not_not.mp fun hb0 => hne ⟨b, hb, hb0⟩
      rw [bitsetEncodeBytes_eq_nil hzero] at hshort ⊢
      exact bitsetDecodeBytes_zeros hzero hshort
  · rw [decompressBytes, if_neg (by omega), if_pos rfl]

theorem compressBytes_roundTrip :
    (∀ d : List UInt8, decompressBytes (compressBytes d) d.length = .ok d) ∧
    (∀ d : List UInt8, (compressBytes d).length ≤ d.length) ∧
    (∀ (data : List UInt8) (t : Nat), 2 ≤ t → data ≠ [] → (t + 7) / 8 < t ∧
      bitsetDecodePartialBytes data t = (bitsetDecodePartialBytes data ((t + 7) / 8)).bind fun r =>
        (List.range (8 * r.1.length)).foldlM (decodeStep data r.1) (List.replicate t 0, r.2)) := by
  refine ⟨decompressBytes_compressBytes, compressBytes_length_le, ?_⟩
  intro data t ht hdata
  exact ⟨by omega, bitsetDecodePartialBytes_of_two_le ht hdata⟩

theorem compressBytes_roundTrip_sample :
    decompressBytes (compressBytes [0, 0, 7]) [0, 0, 7].length = .ok [0, 0, 7] ∧ (9 + 7) / 8 < 9 :=
  ⟨compressBytes_roundTrip.1 [0, 0, 7],
    (compressBytes_roundTrip.2.2 [1] 9 (by decide) (List.cons_ne_nil 1 [])).1⟩

end GoMetadium.Bitutil
