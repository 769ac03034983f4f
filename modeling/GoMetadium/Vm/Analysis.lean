import Mathlib

set_option autoImplicit false

/-! # Jump-destination analysis (`core/vm/analysis.go`, `core/vm/contract.go`)

`codeBitmap` marks, one bit per byte of code and most significant bit first, the bytes that are
data of a `PUSHn`. It writes eight bits at a time with `set8`, which straddles two bytes when
its position is not a multiple of eight, and allocates four bytes more than the code needs so
that the data of a `PUSH32` at the end of the code still lands inside. A write outside the
bit vector would panic in Go; here it is `none`, so that `codeBitmap_spec` says both that the
bitmap is always built and what it holds.

The specification is the linear reading of the code (`Scan`): from position 0, one instruction
after another, each `PUSHn` followed by its `n` bytes of data. Every position inside the code
is either an instruction start or data of a push met on the way (`instrStart_iff`), and the
bitmap marks exactly the data (`codeSegment_codeBitmap`). `validJumpdest` answers from a cached
bitmap when there is one; with caches that hold the analyses of their codes it answers the
specification and keeps the caches so (`validJumpdest_spec`). The caches of an execution start
empty and only `validJumpdest` writes them, so every call of an execution answers the
specification (`validJumpdestRun_spec`).
-/

namespace GoMetadium.Vm

/-- The opcodes the analysis reads. -/
def PUSH1 : UInt8 := 0x60
def PUSH32 : UInt8 := 0x7f
def JUMPDEST : UInt8 := 0x5b

/-! ## Bit vectors -/

/-- `0x80 >> (pos % 8)`: the bit of `pos` within its byte. -/
def posMask (pos : Nat) : UInt8 := 0x80 >>> UInt8.ofNat (pos % 8)

/-- Whether the bit of position `q` is set; bytes past the end read as zero. -/
def dataBit (bits : List UInt8) (q : Nat) : Bool := bits.getD (q / 8) 0 &&& posMask q != 0

namespace Bitvec

/-- `bits.set(pos)`; `none` where Go's index panics. -/
def set (bits : List UInt8) (pos : Nat) : Option (List UInt8) :=
  if pos / 8 < bits.length then
    some (bits.set (pos / 8) (bits.getD (pos / 8) 0 ||| posMask pos))
  else none

/-- `bits.set8(pos)`: the low bits of byte `pos/8` from `pos % 8` on, and the high bits of the
next byte before it; `none` where Go's index panics. -/
def set8 (bits : List UInt8) (pos : Nat) : Option (List UInt8) :=
  if pos / 8 + 1 < bits.length then
    let bits := bits.set (pos / 8) (bits.getD (pos / 8) 0 ||| 0xFF >>> UInt8.ofNat (pos % 8))
    some (bits.set (pos / 8 + 1)
      (bits.getD (pos / 8 + 1) 0 ||| ~~~(0xFF >>> UInt8.ofNat (pos % 8))))
  else none

/-- `bits.codeSegment(pos)`: the bit of `pos` is clear; `none` where Go's index panics. -/
def codeSegment (bits : List UInt8) (pos : Nat) : Option Bool :=
  bits[pos / 8]?.map fun b => b &&& posMask pos == 0

end Bitvec

theorem posMask_mod (q : Nat) : posMask (q % 8) = posMask q := by
  rw [posMask, posMask, Nat.mod_mod]

theorem or_and_ne_zero (x m b : UInt8) :
    ((x ||| m) &&& b != 0) = (x &&& b != 0 || m &&& b != 0) := by
  have hdist : (x ||| m) &&& b = (x &&& b) ||| (m &&& b) := by
    apply UInt8.toBitVec_inj.mp
    simp [BitVec.and_or_distrib_right]
  rw [hdist]
  apply Bool.eq_iff_iff.mpr
  simp only [Bool.or_eq_true, bne_iff_ne, ne_eq, UInt8.or_eq_zero_iff, not_and_or]

/-- The three masks the analysis ORs in, read at the bit of position `k` of the byte; checked
over the 64 pairs of positions. -/
theorem mask_bits : ∀ s < 8, ∀ k < 8,
    (posMask s &&& posMask k != 0) = decide (s = k) ∧
    ((0xFF : UInt8) >>> UInt8.ofNat s &&& posMask k != 0) = decide (s ≤ k) ∧
    (~~~((0xFF : UInt8) >>> UInt8.ofNat s) &&& posMask k != 0) = decide (k < s) := by
  decide

/-- OR-ing `m` into byte `i` adds, at the positions of that byte, the bits of `m`. -/
theorem dataBit_set_or {bits : List UInt8} {i : Nat} (hi : i < bits.length) (m : UInt8)
    (q : Nat) :
    dataBit (bits.set i (bits.getD i 0 ||| m)) q =
      (dataBit bits q || (decide (q / 8 = i) && m &&& posMask q != 0)) := by
  unfold dataBit
  by_cases hq : q / 8 = i
  · rw [hq, List.getD_eq_getElem?_getD, List.getElem?_set_self hi, Option.getD_some,
      or_and_ne_zero]
    simp
  · rw [List.getD_eq_getElem?_getD, List.getElem?_set_ne (Ne.symm hq), ← List.getD_eq_getElem?_getD]
    simp [hq]

theorem set_eq_some {bits : List UInt8} {pos : Nat} (h : pos / 8 < bits.length) :
    ∃ bits', Bitvec.set bits pos = some bits' ∧ bits'.length = bits.length ∧
      ∀ q, dataBit bits' q = (dataBit bits q || decide (q = pos)) := by
  refine ⟨_, if_pos h, List.length_set .., fun q => ?_⟩
  rw [dataBit_set_or h, ← posMask_mod pos, ← posMask_mod q,
    (mask_bits (pos % 8) (Nat.mod_lt _ (by decide)) (q % 8) (Nat.mod_lt _ (by decide))).1]
  have hpos : (q / 8 = pos / 8 ∧ pos % 8 = q % 8) ↔ q = pos := by omega
  simp only [← Bool.decide_and, hpos]

/-- `set8` sets the eight positions from `pos`, in one byte or across two. -/
theorem set8_eq_some {bits : List UInt8} {pos : Nat} (h : pos / 8 + 1 < bits.length) :
    ∃ bits', Bitvec.set8 bits pos = some bits' ∧ bits'.length = bits.length ∧
      ∀ q, dataBit bits' q = (dataBit bits q || decide (pos ≤ q ∧ q < pos + 8)) := by
  have hs := Nat.mod_lt pos (show 8 > 0 by decide)
  refine ⟨_, if_pos h, by simp, fun q => ?_⟩
  have hk := Nat.mod_lt q (show 8 > 0 by decide)
  obtain ⟨-, hlow, hhigh⟩ := mask_bits (pos % 8) hs (q % 8) hk
  have h1 : pos / 8 < bits.length := by omega
  have h2 : pos / 8 + 1 < (bits.set (pos / 8) (bits.getD (pos / 8) 0 |||
      0xFF >>> UInt8.ofNat (pos % 8))).length := by rw [List.length_set]; exact h
  rw [dataBit_set_or h2, dataBit_set_or h1, ← posMask_mod q, hlow, hhigh]
  -- the low part of the first byte and the high part of the next are the eight positions
  have hrange : ((q / 8 = pos / 8 ∧ pos % 8 ≤ q % 8) ∨ (q / 8 = pos / 8 + 1 ∧ q % 8 < pos % 8)) ↔
      (pos ≤ q ∧ q < pos + 8) := by omega
  simp only [Bool.or_assoc, ← Bool.decide_and, ← Bool.decide_or, hrange]

/-! ## The loops of `codeBitmap` -/

/-- The second inner loop of `codeBitmap`: `bits.set(pc); pc++` for each of `numbits` bytes. -/
def setLoop : List UInt8 → Nat → Nat → Option (List UInt8 × Nat)
  | bits, pc, 0 => some (bits, pc)
  | bits, pc, numbits + 1 => do setLoop (← Bitvec.set bits pc) (pc + 1) numbits

/-- The first inner loop, `bits.set8(pc); pc += 8` while `numbits >= 8`, then the second. -/
def set8Loop : List UInt8 → Nat → Nat → Option (List UInt8 × Nat)
  | bits, pc, numbits + 8 => do set8Loop (← Bitvec.set8 bits pc) (pc + 8) numbits
  | bits, pc, numbits => setLoop bits pc numbits

theorem setLoop_pc : ∀ {numbits : Nat} {bits bits' : List UInt8} {pc pc' : Nat},
    setLoop bits pc numbits = some (bits', pc') → pc' = pc + numbits
  | 0, bits, bits', pc, pc', h => by
    simp only [setLoop, Option.some.injEq, Prod.mk.injEq] at h
    omega
  | n + 1, bits, bits', pc, pc', h => by
    simp only [setLoop] at h
    obtain ⟨b, -, h⟩ := Option.bind_eq_some_iff.mp h
    have := setLoop_pc h
    omega

/-- The inner loops leave `pc` after the data. -/
theorem set8Loop_pc {bits bits' : List UInt8} {pc pc' numbits : Nat}
    (h : set8Loop bits pc numbits = some (bits', pc')) : pc' = pc + numbits := by
  induction bits, pc, numbits using set8Loop.induct generalizing bits' pc' with
  | case1 bits pc n ih =>
    simp only [set8Loop] at h
    obtain ⟨b, -, h⟩ := Option.bind_eq_some_iff.mp h
    have := ih b h
    omega
  | case2 bits pc n hn =>
    rw [set8Loop.eq_2 _ _ _ hn] at h
    exact setLoop_pc h

/-- The loop of `codeBitmap` from `pc`: a `PUSHn` has its `n` data positions set and is
skipped over with them. -/
def codeBitmapLoop (code bits : List UInt8) (pc : Nat) : Option (List UInt8) :=
  if h : pc < code.length then
    if PUSH1 ≤ code[pc] ∧ code[pc] ≤ PUSH32 then
      match hloop : set8Loop bits (pc + 1) (code[pc] - PUSH1 + 1).toNat with
      | none => none
      | some (bits', pc') => codeBitmapLoop code bits' pc'
    else codeBitmapLoop code bits (pc + 1)
  else some bits
termination_by code.length - pc
decreasing_by
  · have := set8Loop_pc hloop
    omega
  · omega

/-- `codeBitmap`: the bit vector of `len(code)/8+1+4` bytes, with the data of every push set. -/
def codeBitmap (code : List UInt8) : Option (List UInt8) :=
  codeBitmapLoop code (List.replicate (code.length / 8 + 1 + 4) 0) 0

/-- The second loop sets the `numbits` positions from `pc`, all inside the bit vector. -/
theorem setLoop_spec : ∀ (numbits : Nat) (bits : List UInt8) (pc : Nat),
    pc + numbits ≤ 8 * bits.length →
    ∃ bits', setLoop bits pc numbits = some (bits', pc + numbits) ∧ bits'.length = bits.length ∧
      ∀ q, dataBit bits' q = (dataBit bits q || decide (pc ≤ q ∧ q < pc + numbits))
  | 0, bits, pc, _ => ⟨bits, rfl, rfl, fun q => by simp⟩
  | n + 1, bits, pc, hb => by
    obtain ⟨b1, h1, hlen1, hbits1⟩ := set_eq_some (show pc / 8 < bits.length by omega)
    obtain ⟨b2, h2, hlen2, hbits2⟩ := setLoop_spec n b1 (pc + 1) (by omega)
    refine ⟨b2, ?_, hlen2.trans hlen1, fun q => ?_⟩
    · rw [setLoop, h1]
      show setLoop b1 (pc + 1) n = _
      rw [h2, show pc + 1 + n = pc + (n + 1) by omega]
    · have hrange : (q = pc ∨ (pc + 1 ≤ q ∧ q < pc + 1 + n)) ↔ (pc ≤ q ∧ q < pc + (n + 1)) := by
        omega
      rw [hbits2, hbits1]
      simp only [Bool.or_assoc, ← Bool.decide_or, hrange]

/-- Both inner loops set the `numbits` positions from `pc`, inside the bit vector when it
reaches a byte past them. -/
theorem set8Loop_spec (bits : List UInt8) (pc numbits : Nat) :
    pc + numbits < 8 * bits.length →
    ∃ bits', set8Loop bits pc numbits = some (bits', pc + numbits) ∧ bits'.length = bits.length ∧
      ∀ q, dataBit bits' q = (dataBit bits q || decide (pc ≤ q ∧ q < pc + numbits)) := by
  induction bits, pc, numbits using set8Loop.induct with
  | case1 bits pc n ih =>
    -- eight positions by `set8`, the others by the rest of the loops
    intro hb
    obtain ⟨b1, h1, hlen1, hbits1⟩ := set8_eq_some (show pc / 8 + 1 < bits.length by omega)
    obtain ⟨b2, h2, hlen2, hbits2⟩ := ih b1 (by rw [hlen1]; omega)
    refine ⟨b2, ?_, hlen2.trans hlen1, fun q => ?_⟩
    · rw [set8Loop, h1]
      show set8Loop b1 (pc + 8) n = _
      rw [h2, show pc + 8 + n = pc + (n + 8) by omega]
    · have hrange : ((pc ≤ q ∧ q < pc + 8) ∨ (pc + 8 ≤ q ∧ q < pc + 8 + n)) ↔
          (pc ≤ q ∧ q < pc + (n + 8)) := by
        omega
      rw [hbits2, hbits1]
      simp only [Bool.or_assoc, ← Bool.decide_or, hrange]
  | case2 bits pc n hn =>
    intro hb
    rw [set8Loop.eq_2 _ _ _ hn]
    exact setLoop_spec n bits pc (by omega)

/-! ## The linear reading of the code -/

/-- Not Go: the number of data bytes after the opcode `op`: `n` for `PUSHn`, none otherwise. -/
def pushData (op : UInt8) : Nat :=
  if 0x60 ≤ op.toNat ∧ op.toNat ≤ 0x7f then op.toNat - 0x5f else 0

/-- Not Go: the position after the instruction at `pc` and its data. -/
def nextPc (code : List UInt8) (pc : Nat) : Nat := pc + 1 + pushData (code.getD pc 0)

/-- Not Go: `s` is an instruction met when the code is read from `pc`, one instruction after
another. -/
inductive Scan (code : List UInt8) : Nat → Nat → Prop
  | refl (pc : Nat) : Scan code pc pc
  | step {pc s : Nat} : pc < code.length → Scan code (nextPc code pc) s → Scan code pc s

/-- Not Go: an instruction starts at `p` when the code is read from position 0. -/
def InstrStart (code : List UInt8) (p : Nat) : Prop := Scan code 0 p

/-- Not Go: `q` is data of a push met when the code is read from `pc`. -/
def IsData (code : List UInt8) (pc q : Nat) : Prop :=
  ∃ s, Scan code pc s ∧ s < code.length ∧ s < q ∧ q < nextPc code s

/-- The loop's test and count agree with `pushData`, checked over the 256 bytes. -/
theorem pushData_eq (op : UInt8) :
    pushData op = if PUSH1 ≤ op ∧ op ≤ PUSH32 then (op - PUSH1 + 1).toNat else 0 := by
  revert op
  decide +kernel

theorem Scan.le {code : List UInt8} {pc s : Nat} (h : Scan code pc s) : pc ≤ s := by
  induction h with
  | refl => exact Nat.le_refl _
  | step _ _ ih =>
    unfold nextPc at ih
    omega

theorem scan_iff {code : List UInt8} {pc s : Nat} :
    Scan code pc s ↔ s = pc ∨ (pc < code.length ∧ Scan code (nextPc code pc) s) := by
  constructor
  · intro h
    cases h with
    | refl => exact .inl rfl
    | step hpc h => exact .inr ⟨hpc, h⟩
  · rintro (rfl | ⟨hpc, h⟩)
    · exact .refl _
    · exact .step hpc h

/-- The data met from `pc`: that of the instruction at `pc`, then that met after it. -/
theorem isData_iff {code : List UInt8} {pc q : Nat} :
    IsData code pc q ↔
      pc < code.length ∧ ((pc < q ∧ q < nextPc code pc) ∨ IsData code (nextPc code pc) q) := by
  constructor
  · rintro ⟨s, hs, hslen, hsq, hqs⟩
    rcases scan_iff.mp hs with rfl | ⟨hpc, hs'⟩
    · exact ⟨hslen, .inl ⟨hsq, hqs⟩⟩
    · exact ⟨hpc, .inr ⟨s, hs', hslen, hsq, hqs⟩⟩
  · rintro ⟨hpc, ⟨hq1, hq2⟩ | ⟨s, hs, hslen, hsq, hqs⟩⟩
    · exact ⟨pc, .refl pc, hpc, hq1, hq2⟩
    · exact ⟨s, .step hpc hs, hslen, hsq, hqs⟩

/-- Every position from `pc` on inside the code is an instruction of the reading from `pc` or
data of one; by strong induction on the distance from `pc` to the end of the code. -/
theorem scan_or_isData (code : List UInt8) (n : Nat) :
    ∀ pc q, code.length - pc = n → pc ≤ q → q < code.length → Scan code pc q ∨ IsData code pc q := by
  induction n using Nat.strong_induction_on with
  | _ n ih =>
  intro pc q hn hpq hq
  by_cases heq : q = pc
  · subst heq
    exact .inl (.refl _)
  · have hpc : pc < code.length := by omega
    by_cases hnext : q < nextPc code pc
    · exact .inr (isData_iff.mpr ⟨hpc, .inl ⟨by omega, hnext⟩⟩)
    · -- `q` lies past the instruction at `pc`: read on from the next one
      have hgt : pc < nextPc code pc := by unfold nextPc; omega
      rcases ih (code.length - nextPc code pc) (by omega) (nextPc code pc) q rfl (by omega) hq with
        hs | hd
      · exact .inl (.step hpc hs)
      · exact .inr (isData_iff.mpr ⟨hpc, .inr hd⟩)

/-- An instruction of the reading from `pc` is never data of it; by induction on the reading. -/
theorem not_isData_of_scan {code : List UInt8} {pc q : Nat} (h : Scan code pc q) :
    ¬ IsData code pc q := by
  induction h with
  | refl pc =>
    rintro ⟨s, hs, -, hsq, -⟩
    exact absurd hs.le (by omega)
  | step hpc hscan ih =>
    intro hdata
    rcases (isData_iff.mp hdata).2 with ⟨-, hq⟩ | hdata'
    · exact absurd hscan.le (by omega)
    · exact ih hdata'

/-- **A position of the code starts an instruction exactly when it is not push data.** -/
theorem instrStart_iff {code : List UInt8} {p : Nat} (hp : p < code.length) :
    InstrStart code p ↔ ¬ IsData code 0 p :=
  ⟨not_isData_of_scan,
    fun h => (scan_or_isData code _ 0 p rfl (Nat.zero_le p) hp).resolve_right h⟩

/-! ## What the bitmap holds -/

theorem pushData_le (op : UInt8) : pushData op ≤ 32 := by
  unfold pushData
  split_ifs with h
  · omega
  · omega

theorem codeBitmapLoop_push {code bits : List UInt8} {pc : Nat} (h : pc < code.length)
    (hpush : PUSH1 ≤ code[pc] ∧ code[pc] ≤ PUSH32) {bits' : List UInt8} {pc' : Nat}
    (hloop : set8Loop bits (pc + 1) (code[pc] - PUSH1 + 1).toNat = some (bits', pc')) :
    codeBitmapLoop code bits pc = codeBitmapLoop code bits' pc' := by
  rw [codeBitmapLoop, dif_pos h, if_pos hpush]
  split
  · rename_i hnone
    rw [hnone] at hloop
    cases hloop
  · rename_i b p hsome
    rw [hsome] at hloop
    cases hloop
    rfl

/-- **The loop marks the data met from `pc`**, and stays inside its bit vector when that has
room for 32 bytes past the code. By induction along the loop: a push sets its data and the
loop goes on after it. -/
theorem codeBitmapLoop_spec (code bits : List UInt8) (pc : Nat) :
    code.length + 32 < 8 * bits.length →
    ∃ bits', codeBitmapLoop code bits pc = some bits' ∧ bits'.length = bits.length ∧
      ∀ q, dataBit bits' q = true ↔ dataBit bits q = true ∨ IsData code pc q := by
  induction bits, pc using codeBitmapLoop.induct code with
  | case1 bits pc h hpush hnone =>
    -- the inner loops cannot fail: the data ends at most 32 bytes past the code
    intro hb
    have hn : (code[pc] - PUSH1 + 1).toNat = pushData code[pc] := by rw [pushData_eq, if_pos hpush]
    have hle := pushData_le code[pc]
    obtain ⟨_, hsome, -⟩ := set8Loop_spec bits (pc + 1) (code[pc] - PUSH1 + 1).toNat (by omega)
    rw [hsome] at hnone
    cases hnone
  | case2 bits pc h hpush bits' pc' hloop ih =>
    intro hb
    have hn : (code[pc] - PUSH1 + 1).toNat = pushData code[pc] := by rw [pushData_eq, if_pos hpush]
    have hle := pushData_le code[pc]
    obtain ⟨b, hsome, hlen, hbits⟩ :=
      set8Loop_spec bits (pc + 1) (code[pc] - PUSH1 + 1).toNat (by omega)
    -- the inner loops' result is the one `set8Loop_spec` describes
    rw [hsome, Option.some.injEq, Prod.mk.injEq] at hloop
    obtain ⟨rfl, rfl⟩ := hloop
    have hnext : nextPc code pc = pc + 1 + (code[pc] - PUSH1 + 1).toNat := by
      rw [nextPc, List.getD_eq_getElem _ _ h, hn]
    obtain ⟨b', hrun, hlen', hbits'⟩ := ih (by rw [hlen]; exact hb)
    refine ⟨b', by rw [codeBitmapLoop_push h hpush hsome, hrun], hlen'.trans hlen, fun q => ?_⟩
    -- the push's data, then what the loop marks after it
    have hdata : IsData code pc q ↔ (pc + 1 ≤ q ∧ q < pc + 1 + (code[pc] - PUSH1 + 1).toNat) ∨
        IsData code (pc + 1 + (code[pc] - PUSH1 + 1).toNat) q := by
      rw [isData_iff, hnext]
      constructor
      · rintro ⟨-, hd⟩
        exact hd
      · intro hd
        exact ⟨h, hd⟩
    rw [hbits', hbits, hdata]
    simp only [Bool.or_eq_true, decide_eq_true_eq]
    tauto
  | case3 bits pc h hpush ih =>
    intro hb
    have hn : pushData code[pc] = 0 := by rw [pushData_eq, if_neg hpush]
    have hnext : nextPc code pc = pc + 1 := by rw [nextPc, List.getD_eq_getElem _ _ h, hn]
    obtain ⟨b', hrun, hlen', hbits'⟩ := ih hb
    refine ⟨b', by rw [codeBitmapLoop, dif_pos h, if_neg hpush, hrun], hlen', fun q => ?_⟩
    -- no data at `pc`: the data met from `pc` is that met from `pc + 1`
    have hdata : IsData code pc q ↔ IsData code (pc + 1) q := by
      rw [isData_iff, hnext]
      constructor
      · rintro ⟨-, ⟨h1, h2⟩ | hd⟩
        · omega
        · exact hd
      · intro hd
        exact ⟨h, .inr hd⟩
    rw [hbits', hdata]
  | case4 bits pc h =>
    intro _
    refine ⟨bits, by rw [codeBitmapLoop, dif_neg h], rfl, fun q => ?_⟩
    have hnone : ¬ IsData code pc q := fun hd => h (isData_iff.mp hd).1
    simp [hnone]

theorem dataBit_replicate_zero (n q : Nat) : dataBit (List.replicate n 0) q = false := by
  have hbyte : (List.replicate n (0 : UInt8)).getD (q / 8) 0 = 0 := by
    rw [List.getD_eq_getElem?_getD, List.getElem?_replicate]
    split_ifs <;> rfl
  rw [dataBit, hbyte, UInt8.zero_and]
  rfl

/-- **`codeBitmap` never writes outside the bit vector it allocates**, and sets exactly the
data of the pushes met when the code is read from 0. -/
theorem codeBitmap_spec (code : List UInt8) :
    ∃ bits, codeBitmap code = some bits ∧ bits.length = code.length / 8 + 1 + 4 ∧
      ∀ q, dataBit bits q = true ↔ IsData code 0 q := by
  have hroom : code.length + 32 <
      8 * (List.replicate (code.length / 8 + 1 + 4) (0 : UInt8)).length := by
    rw [List.length_replicate]
    omega
  obtain ⟨bits, hrun, hlen, hbits⟩ := codeBitmapLoop_spec code _ 0 hroom
  refine ⟨bits, hrun, by rw [hlen, List.length_replicate], fun q => ?_⟩
  rw [hbits, dataBit_replicate_zero]
  simp

theorem codeSegment_eq {bits : List UInt8} {p : Nat} (h : p / 8 < bits.length) :
    Bitvec.codeSegment bits p = some (!dataBit bits p) := by
  rw [Bitvec.codeSegment, List.getElem?_eq_getElem h, Option.map_some, dataBit,
    List.getD_eq_getElem _ _ h, bne, Bool.not_not]

/-- **The bitmap answers the linear reading**: at a position of the code, `codeSegment`
holds exactly when an instruction starts there. -/
theorem codeSegment_codeBitmap {code bits : List UInt8} (hbits : codeBitmap code = some bits)
    {p : Nat} (hp : p < code.length) :
    ∃ b, Bitvec.codeSegment bits p = some b ∧ (b = true ↔ InstrStart code p) := by
  obtain ⟨bits', hbits', hlen, hdata⟩ := codeBitmap_spec code
  rw [hbits] at hbits'
  cases hbits'
  refine ⟨_, codeSegment_eq (by rw [hlen]; omega), ?_⟩
  rw [instrStart_iff hp, ← hdata]
  simp

/-! ## `validJumpdest` -/

/-- What `validJumpdest` reads and writes besides the code: the `jumpdests` of the parent
context, shared by code hash, and the contract's own `analysis`. -/
structure JumpdestCache (Hash : Type) where
  jumpdests : Hash → Option (List UInt8)
  analysis : Option (List UInt8)

variable {Hash : Type} [DecidableEq Hash] [Zero Hash]

/-- `Contract.validJumpdest(dest)` for a contract with code `code` and hash `codeHash`, with the
caches it reads and writes; `none` where Go panics. -/
def validJumpdest (code : List UInt8) (codeHash : Hash) (c : JumpdestCache Hash) (dest : Nat) :
    Option (Bool × JumpdestCache Hash) :=
  let udest := dest % 2 ^ 64
  if 63 ≤ dest.size ∨ code.length ≤ udest then some (false, c)
  else if code.getD udest 0 ≠ JUMPDEST then some (false, c)
  else if codeHash ≠ 0 then
    match c.jumpdests codeHash with
    | some analysis => (Bitvec.codeSegment analysis udest).map fun b => (b, c)
    | none => do
      -- the analysis goes into the parent context's map before it is read
      let analysis ← codeBitmap code
      let b ← Bitvec.codeSegment analysis udest
      pure (b, { c with jumpdests := Function.update c.jumpdests codeHash (some analysis) })
  else
    match c.analysis with
    | some analysis => (Bitvec.codeSegment analysis udest).map fun b => (b, c)
    | none => do
      let analysis ← codeBitmap code
      let b ← Bitvec.codeSegment analysis udest
      pure (b, { c with analysis := some analysis })

/-- The caches hold the analyses of what they stand for: each entry of `jumpdests` that of the
code of its hash, and `analysis` that of the contract's code. -/
def CacheOk (codeOf : Hash → List UInt8) (code : List UInt8) (c : JumpdestCache Hash) : Prop :=
  (∀ h bits, c.jumpdests h = some bits → codeBitmap (codeOf h) = some bits) ∧
    ∀ bits, c.analysis = some bits → codeBitmap code = some bits

section Cache

variable {codeOf : Hash → List UInt8} {code : List UInt8} {codeHash : Hash}

omit [DecidableEq Hash] [Zero Hash] in
theorem cacheOk_empty : CacheOk codeOf code ⟨fun _ => none, none⟩ := by
  constructor
  · intro h bits hnone
    cases hnone
  · intro bits hnone
    cases hnone

/-- Past its checks, `validJumpdest` reads the bitmap of the code, from a cache or freshly
computed, and leaves caches that still hold the analyses of their codes. -/
theorem validJumpdest_of_checks (hcode : codeHash ≠ 0 → codeOf codeHash = code)
    {c : JumpdestCache Hash} (hc : CacheOk codeOf code c) {bits : List UInt8}
    (hbits : codeBitmap code = some bits) {dest : Nat}
    (hin : ¬ (63 ≤ dest.size ∨ code.length ≤ dest % 2 ^ 64))
    (hj : code.getD (dest % 2 ^ 64) 0 = JUMPDEST) :
    ∃ c', validJumpdest code codeHash c dest =
        (Bitvec.codeSegment bits (dest % 2 ^ 64)).map (fun b => (b, c')) ∧
      CacheOk codeOf code c' := by
  unfold validJumpdest
  dsimp only
  rw [if_neg hin, if_neg (not_not.mpr hj)]
  by_cases hh : codeHash ≠ 0
  · rw [if_pos hh]
    cases hentry : c.jumpdests codeHash with
    | some analysis =>
      -- a cached entry is the analysis of this code, since the hash stands for it
      have hsame : analysis = bits := by
        have := hc.1 codeHash analysis hentry
        rw [hcode hh, hbits] at this
        exact (Option.some.inj this).symm
      exact ⟨c, by rw [hsame], hc⟩
    | none =>
      refine ⟨{ c with jumpdests := Function.update c.jumpdests codeHash (some bits) }, ?_, ?_, hc.2⟩
      · simp only [hbits, Option.bind_eq_bind, Option.bind_some, bind_pure_comp]
        rfl
      · intro h' bits' hupd
        dsimp only at hupd
        by_cases hh' : h' = codeHash
        · subst hh'
          rw [Function.update_self, Option.some.injEq] at hupd
          rw [hcode hh, hbits, hupd]
        · rw [Function.update_of_ne hh'] at hupd
          exact hc.1 h' bits' hupd
  · rw [if_neg hh]
    cases hentry : c.analysis with
    | some analysis =>
      have hsame : analysis = bits := by
        have := hc.2 analysis hentry
        rw [hbits] at this
        exact (Option.some.inj this).symm
      exact ⟨c, by rw [hsame], hc⟩
    | none =>
      refine ⟨{ c with analysis := some bits }, ?_, hc.1, ?_⟩
      · simp only [hbits, Option.bind_eq_bind, Option.bind_some, bind_pure_comp]
        rfl
      · intro bits' hupd
        rw [← Option.some.inj hupd, hbits]

/-- **`validJumpdest` answers the linear reading**: from caches that hold the analyses of their
codes, it returns, without panicking, whether `dest` is below `2^62`, inside the code, a
`JUMPDEST`, and the start of an instruction, and it leaves caches that still hold them. -/
theorem validJumpdest_spec (hcode : codeHash ≠ 0 → codeOf codeHash = code)
    {c : JumpdestCache Hash} (hc : CacheOk codeOf code c) (dest : Nat) :
    ∃ b c', validJumpdest code codeHash c dest = some (b, c') ∧ CacheOk codeOf code c' ∧
      (b = true ↔ dest < 2 ^ 62 ∧ dest < code.length ∧ code.getD dest 0 = JUMPDEST ∧
        InstrStart code dest) := by
  by_cases hin : 63 ≤ dest.size ∨ code.length ≤ dest % 2 ^ 64
  · -- too far, or past the code: `false` with the caches untouched
    refine ⟨false, c, by rw [validJumpdest, if_pos hin], hc, ?_⟩
    simp only [Bool.false_eq_true, false_iff, not_and]
    intro hsmall hlt
    rcases hin with hsize | hlen
    · exact absurd (Nat.size_le.mpr hsmall) (by omega)
    · rw [Nat.mod_eq_of_lt (by omega)] at hlen
      omega
  · have hsmall : dest < 2 ^ 62 := Nat.size_le.mp (by omega)
    have hmod : dest % 2 ^ 64 = dest := Nat.mod_eq_of_lt (by omega)
    have hlt : dest < code.length := by omega
    rw [hmod] at hin
    by_cases hj : code.getD dest 0 = JUMPDEST
    · obtain ⟨bits, hbits, -⟩ := codeBitmap_spec code
      obtain ⟨b, hseg, hb⟩ := codeSegment_codeBitmap hbits hlt
      obtain ⟨c', hres, hc'⟩ := validJumpdest_of_checks hcode hc hbits
        (by rw [hmod]; exact hin) (by rw [hmod]; exact hj)
      refine ⟨b, c', by rw [hres, hmod, hseg]; rfl, hc', ?_⟩
      rw [hb]
      exact ⟨fun h => ⟨hsmall, hlt, hj, h⟩, fun h => h.2.2.2⟩
    · refine ⟨false, c, ?_, hc, ?_⟩
      · rw [validJumpdest, hmod, if_neg hin, if_pos hj]
      · simp only [Bool.false_eq_true, false_iff, not_and]
        exact fun _ _ h => absurd h hj

end Cache

/-! ## The calls of one execution

The contracts of one execution share one `jumpdests` map: `NewContract` hands a child its
parent's, and the first contract's starts empty. Each contract has its own `analysis`, which
starts empty. The caches are then never written but by `validJumpdest` itself, so they always
hold the analyses of their codes, and every call of the run answers the linear reading. -/

/-- The `validJumpdest` calls of one execution in order, each of the `i`-th contract (`contracts
i`: its code and code hash) about a destination, with the caches the calls before it left; the
replies, or `none` at a panic. -/
def validJumpdestRun (contracts : Nat → List UInt8 × Hash) :
    (Hash → Option (List UInt8)) → (Nat → Option (List UInt8)) → List (Nat × Nat) →
      Option (List Bool)
  | _, _, [] => some []
  | jumpdests, analyses, (i, dest) :: calls =>
    match validJumpdest (contracts i).1 (contracts i).2 ⟨jumpdests, analyses i⟩ dest with
    | none => none
    | some (b, c) =>
      (validJumpdestRun contracts c.jumpdests (Function.update analyses i c.analysis) calls).map
        (b :: ·)

/-- What `validJumpdest(dest)` answers in a contract of code `code`, by the linear reading. -/
def JumpdestSpec (code : List UInt8) (dest : Nat) (b : Bool) : Prop :=
  b = true ↔ dest < 2 ^ 62 ∧ dest < code.length ∧ code.getD dest 0 = JUMPDEST ∧ InstrStart code dest

section Run

variable {codeOf : Hash → List UInt8} {contracts : Nat → List UInt8 × Hash}

/-- Every contract's view of the caches holds the analyses of their codes. -/
def RunCacheOk (codeOf : Hash → List UInt8) (contracts : Nat → List UInt8 × Hash)
    (jumpdests : Hash → Option (List UInt8)) (analyses : Nat → Option (List UInt8)) : Prop :=
  ∀ i, CacheOk codeOf (contracts i).1 ⟨jumpdests, analyses i⟩

omit [DecidableEq Hash] [Zero Hash] in
theorem runCacheOk_empty : RunCacheOk codeOf contracts (fun _ => none) (fun _ => none) :=
  fun _ => cacheOk_empty

omit [DecidableEq Hash] [Zero Hash] in
/-- One call keeps the caches sound: the shared map is the one the call left, which every
contract reads, and only the caller's own `analysis` changes. -/
theorem RunCacheOk.update {jumpdests : Hash → Option (List UInt8)}
    {analyses : Nat → Option (List UInt8)} (h : RunCacheOk codeOf contracts jumpdests analyses)
    {i : Nat} {c : JumpdestCache Hash} (hc : CacheOk codeOf (contracts i).1 c) :
    RunCacheOk codeOf contracts c.jumpdests (Function.update analyses i c.analysis) := by
  intro j
  by_cases hji : j = i
  · subst hji
    rw [Function.update_self]
    exact hc
  · rw [Function.update_of_ne hji]
    exact ⟨hc.1, (h j).2⟩

/-- **Every call of a run answers the linear reading**, from caches that hold the analyses of
their codes, and none panics. -/
theorem validJumpdestRun_spec (hcode : ∀ i, (contracts i).2 ≠ 0 → codeOf (contracts i).2 = (contracts i).1) :
    ∀ (calls : List (Nat × Nat)) (jumpdests : Hash → Option (List UInt8))
      (analyses : Nat → Option (List UInt8)), RunCacheOk codeOf contracts jumpdests analyses →
      ∃ bs, validJumpdestRun contracts jumpdests analyses calls = some bs ∧
        List.Forall₂ (fun call b => JumpdestSpec (contracts call.1).1 call.2 b) calls bs := by
  intro calls
  induction calls with
  | nil => exact fun _ _ _ => ⟨[], rfl, .nil⟩
  | cons call calls ih =>
    intro jumpdests analyses h
    obtain ⟨i, dest⟩ := call
    obtain ⟨b, c, hcall, hc, hb⟩ := validJumpdest_spec (hcode i) (h i) dest
    obtain ⟨bs, hrun, hbs⟩ := ih c.jumpdests (Function.update analyses i c.analysis) (h.update hc)
    refine ⟨b :: bs, ?_, .cons hb hbs⟩
    rw [validJumpdestRun, hcall]
    dsimp only
    rw [hrun, Option.map_some]

end Run

/-- **Jump-destination analysis agrees with the linear reading.** `codeBitmap` builds a bit
vector of `len(code)/8 + 1 + 4` bytes without writing outside it; at every position of the code
`codeSegment` holds exactly when an instruction starts there; and in every execution whose
contracts hold code Go can hold and whose code hashes stand for their codes, every
`validJumpdest(dest)` the execution calls returns, without a panic, whether `dest` is inside the
code, a `JUMPDEST`, and the start of an instruction. -/
theorem jumpdestAnalysis_exact (codeOf : Hash → List UInt8) :
    (∀ code : List UInt8, ∃ bits, codeBitmap code = some bits ∧
      bits.length = code.length / 8 + 1 + 4) ∧
    (∀ (code bits : List UInt8) (p : Nat), codeBitmap code = some bits → p < code.length →
      ∃ b, Bitvec.codeSegment bits p = some b ∧ (b = true ↔ InstrStart code p)) ∧
    (∀ (contracts : Nat → List UInt8 × Hash) (calls : List (Nat × Nat)),
      (∀ i, (contracts i).2 ≠ 0 → codeOf (contracts i).2 = (contracts i).1) →
      (∀ i, (contracts i).1.length ≤ 2 ^ 62) →
      ∃ bs, validJumpdestRun contracts (fun _ => none) (fun _ => none) calls = some bs ∧
        List.Forall₂ (fun call b => (b = true ↔ call.2 < (contracts call.1).1.length ∧
          (contracts call.1).1.getD call.2 0 = JUMPDEST ∧ InstrStart (contracts call.1).1 call.2))
          calls bs) := by
  refine ⟨fun code => ?_, fun _ _ _ hbits hp => codeSegment_codeBitmap hbits hp, ?_⟩
  · obtain ⟨bits, hbits, hlen, -⟩ := codeBitmap_spec code
    exact ⟨bits, hbits, hlen⟩
  · intro contracts calls hcode hlen
    obtain ⟨bs, hrun, hbs⟩ := validJumpdestRun_spec hcode calls _ _ runCacheOk_empty
    refine ⟨bs, hrun, hbs.imp fun {call b} hb => ?_⟩
    -- a destination inside code Go can hold is below `2^62`
    rw [JumpdestSpec] at hb
    rw [hb]
    exact ⟨fun h => h.2, fun h => ⟨lt_of_lt_of_le h.1 (hlen call.1), h⟩⟩

/-- Two jumps to the one `JUMPDEST` of an initcode, the second answered from the cached
analysis. -/
theorem jumpdestAnalysis_exact_twice :
    ∃ bs, validJumpdestRun (fun _ => ([JUMPDEST], (0 : Nat))) (fun _ => none) (fun _ => none)
        [(0, 0), (0, 0)] = some bs ∧
      List.Forall₂ (fun (call : Nat × Nat) b => (b = true ↔ call.2 < [JUMPDEST].length ∧
        [JUMPDEST].getD call.2 0 = JUMPDEST ∧ InstrStart [JUMPDEST] call.2)) [(0, 0), (0, 0)] bs :=
  (jumpdestAnalysis_exact (fun _ : Nat => [JUMPDEST])).2.2 _ _ (fun _ h => absurd rfl h)
    (fun _ => by decide)

end GoMetadium.Vm
