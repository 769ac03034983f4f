import GoMetadium.Core.Signing
import GoMetadium.Vm.Evm

set_option autoImplicit false

/-! # The MODEXP precompile (`core/vm/contracts.go`, `bigModExp`)

`bigModExp` reads three 32-byte big-endian lengths from its input, then a base, an exponent and
a modulus of those lengths, and returns `base ^ exp % mod` in `modLen` bytes (EIP-198).
`RequiredGas` prices it by the larger of the base and modulus lengths and by the adjusted
exponent length, and `RunPrecompiledContract` charges that price before `Run`.

Both read the input through `getData`, which clamps a slice to the input and pads it with
zeros. Its end `start + size` is a `uint64` sum, and `Run` truncates the three lengths to
`uint64` and adds two of them.

The main facts: `RequiredGas` is the EIP-198 price of every input (`requiredGas_eq`). A caller
with less than `2 ^ 61` gas gets from `RunPrecompiledContract` either out of gas or the EIP-198
result, never a panic (`runPrecompiledContract_modExp`). Below `2 ^ 63` the price does not keep
the sums from wrapping: a base length of one, a modulus length of at most one and an exponent
length of `2 ^ 64 - 1` cost less than `2 ^ 63`, and `Run` slices the input from one down to
zero, which panics (`modExp_run_panics_within_gas`).

The input is a Go slice: its length is an `int`, below `2 ^ 63`.
-/

namespace GoMetadium.Vm

open GoMetadium.Go GoMetadium.Core

/-! ## Big-endian bytes -/

/-- `k` bytes stand for a number below `256 ^ k`. -/
theorem bigEndian_lt (b : List UInt8) : Rlp.bigEndian b < 256 ^ b.length := by
  induction b using List.reverseRecOn with
  | nil => simp [Rlp.bigEndian]
  | append_singleton b x ih =>
    rw [Rlp.bigEndian_snoc, List.length_append, List.length_singleton, pow_succ]
    have hx := x.toNat_lt
    calc Rlp.bigEndian b * 256 + x.toNat
        < Rlp.bigEndian b * 256 + 256 := by omega
      _ = (Rlp.bigEndian b + 1) * 256 := by ring
      _ ≤ 256 ^ b.length * 256 := Nat.mul_le_mul_right _ ih

/-- `Bytes()` of a number reads back as the number. -/
theorem bigEndian_bigBytes (n : Nat) : Rlp.bigEndian (bigBytes n) = n := by
  unfold bigBytes
  split_ifs with h
  · simp only [Int.natAbs_natCast] at h
    simp [h, Rlp.bigEndian]
  · simp only [Int.natAbs_natCast]
    exact Rlp.bigEndian_putint n

/-- A number below `256 ^ k` has at most `k` bytes. -/
theorem length_bigBytes_le {n k : Nat} (h : n < 256 ^ k) : (bigBytes n).length ≤ k := by
  unfold bigBytes
  split_ifs with hn
  · simp
  · simp only [Int.natAbs_natCast] at hn ⊢
    have hk : 1 ≤ k := by
      rcases Nat.eq_zero_or_pos k with rfl | hk
      · simp at h
        omega
      · exact hk
    exact Rlp.length_putint_le hk h

/-! ## Slices of the input (`common/bytes.go`, `core/vm/common.go`) -/

/-- `common.RightPadBytes(slice, l)`: zeros after `slice` up to length `l`. -/
def rightPadBytes (slice : List UInt8) (l : Int) : List UInt8 :=
  if l ≤ slice.length then slice else slice ++ List.replicate (l.toNat - slice.length) 0

/-- `common.LeftPadBytes(slice, l)`: zeros before `slice` up to length `l`. -/
def leftPadBytes (slice : List UInt8) (l : Int) : List UInt8 :=
  if l ≤ slice.length then slice else List.replicate (l.toNat - slice.length) 0 ++ slice

/-- `getData(data, start, size)`: the `size` bytes from `start`, clamped to `data` and padded
with zeros to `int(size)`; `none` is the run-time panic of `data[start:end]` when the `uint64`
sum `start + size` wraps below `start`. -/
def getData (data : List UInt8) (start size : Nat) : Option (List UInt8) :=
  let length := data.length
  let start := if start > length then length else start
  let endIdx := addU64 start size
  let endIdx := if endIdx > length then length else endIdx
  if start ≤ endIdx then some (rightPadBytes ((data.take endIdx).drop start) (wrapI64 size))
  else none

/-- The `len` bytes of `data` from `start`, with zeros past its end. -/
def paddedSlice (data : List UInt8) (start len : Nat) : List UInt8 :=
  (data.drop start).take len ++ List.replicate (len - ((data.drop start).take len).length) 0

/-- The number in the `len` bytes of `data` from `start`, zeros past its end: how EIP-198
reads each field of the input. -/
def field (data : List UInt8) (start len : Nat) : Nat := Rlp.bigEndian (paddedSlice data start len)

@[simp] theorem length_paddedSlice (data : List UInt8) (start len : Nat) :
    (paddedSlice data start len).length = len := by
  simp only [paddedSlice, List.length_append, List.length_replicate, List.length_take]
  omega

theorem field_lt (data : List UInt8) (start len : Nat) : field data start len < 256 ^ len := by
  have h := bigEndian_lt (paddedSlice data start len)
  rwa [length_paddedSlice] at h

/-- Past the end of the data every field is zero. -/
theorem field_of_le {data : List UInt8} {start : Nat} (len : Nat) (h : data.length ≤ start) :
    field data start len = 0 := by
  have hzeros : Rlp.bigEndian (List.replicate len 0) = 0 := by
    have h₀ := Rlp.bigEndian_replicate_zero_append len []
    rw [List.append_nil] at h₀
    exact h₀
  simp [field, paddedSlice, List.drop_eq_nil_of_le h, hzeros]

theorem field_drop (data : List UInt8) (k start len : Nat) :
    field (data.drop k) start len = field data (k + start) len := by
  simp only [field, paddedSlice, List.drop_drop]

/-- Without a wrap, `getData` is the padded slice. -/
theorem getData_eq_some {data : List UInt8} {start size : Nat}
    (hwrap : min start data.length + size < 2 ^ 64) (hsize : size < 2 ^ 63) :
    getData data start size = some (paddedSlice data start size) := by
  have hclamp : (if start > data.length then data.length else start) = min start data.length := by
    split_ifs <;> omega
  have hend : (if min start data.length + size > data.length then data.length
      else min start data.length + size) = min (min start data.length + size) data.length := by
    split_ifs <;> omega
  have hint : wrapI64 size = size := wrapI64_of_mem (by omega) (by exact_mod_cast hsize)
  simp only [getData, hclamp, addU64_of_lt hwrap, hend, hint]
  rw [if_pos (by omega)]
  -- the clamped slice is the slice of `paddedSlice`, at most `size` long
  have hslice : (data.take (min (min start data.length + size) data.length)).drop
      (min start data.length) = (data.drop start).take size := by
    rw [List.drop_take]
    by_cases hs : start ≤ data.length
    · rw [Nat.min_eq_left hs]
      apply List.take_eq_take_iff.mpr
      simp only [List.length_drop]
      omega
    · have hmin : min start data.length = data.length := Nat.min_eq_right (by omega)
      rw [hmin, List.drop_eq_nil_of_le (le_refl data.length),
        List.drop_eq_nil_of_le (by omega : data.length ≤ start)]
      simp
  rw [hslice]
  have hlen : ((data.drop start).take size).length ≤ size := List.length_take_le _ _
  unfold rightPadBytes paddedSlice
  split_ifs with hfull
  · have heq : size - ((data.drop start).take size).length = 0 := by omega
    rw [heq, List.replicate_zero, List.append_nil]
  · simp

/-- A `uint64` end that wraps below the clamped start: `data[start:end]` panics. -/
theorem getData_eq_none {data : List UInt8} {start size : Nat} (hlen : data.length < 2 ^ 64)
    (hsize : size < 2 ^ 64) (hwrap : 2 ^ 64 ≤ min start data.length + size) :
    getData data start size = none := by
  have hclamp : (if start > data.length then data.length else start) = min start data.length := by
    split_ifs <;> omega
  have hsum : addU64 (min start data.length) size = min start data.length + size - 2 ^ 64 := by
    unfold addU64
    rw [Nat.mod_eq_sub_mod hwrap, Nat.mod_eq_of_lt (by omega)]
  have hend : (if min start data.length + size - 2 ^ 64 > data.length then data.length
      else min start data.length + size - 2 ^ 64) = min start data.length + size - 2 ^ 64 := by
    rw [if_neg (by omega)]
  simp only [getData, hclamp, hsum, hend]
  rw [if_neg (by omega)]

/-! ## The price (`bigModExp.RequiredGas`)

The `big.Int` arithmetic of `RequiredGas` is on naturals here: nothing it computes is
negative, and its two subtractions are of less than what they are taken from. -/

/-- `params.ModExpQuadCoeffDiv`. -/
def modExpQuadCoeffDiv : Nat := 20

namespace BigModExp

/-- The head 32 bytes of the exponent for the adjusted exponent length, from the input after
the three lengths: nothing when the base takes the whole input. -/
def expHead (input : List UInt8) (baseLen expLen : Nat) : Option Nat :=
  if input.length ≤ baseLen then pure 0
  else if expLen > 32 then Rlp.bigEndian <$> getData input (baseLen % 2 ^ 64) 32
  else Rlp.bigEndian <$> getData input (baseLen % 2 ^ 64) (expLen % 2 ^ 64)

/-- The quadratic part of the price, in the larger of the base and modulus lengths. -/
def quadGas (gas : Nat) : Nat :=
  if gas ≤ 64 then gas * gas
  else if gas ≤ 1024 then gas * gas / 4 + (96 * gas - 3072)
  else gas * gas / 16 + (480 * gas - 199680)

/-- `RequiredGas(input)`; `none` would be a panic of `getData`. -/
def requiredGas (input : List UInt8) : Option Nat := do
  let baseLen := Rlp.bigEndian (← getData input 0 32)
  let expLen := Rlp.bigEndian (← getData input 32 32)
  let modLen := Rlp.bigEndian (← getData input 64 32)
  let input := if input.length > 96 then input.drop 96 else []
  let expHead ← expHead input baseLen expLen
  -- Calculate the adjusted exponent length
  let msb := if bitLen expHead > 0 then bitLen expHead - 1 else 0
  let adjExpLen := (if expLen > 32 then 8 * (expLen - 32) else 0) + msb
  -- Calculate the gas cost of the operation
  let gas := quadGas (max modLen baseLen) * max adjExpLen 1 / modExpQuadCoeffDiv
  if bitLen gas > 64 then pure (2 ^ 64 - 1) else pure gas

end BigModExp

/-! ## EIP-198 -/

/-- EIP-198's `mult_complexity`. -/
def multComplexity (x : Nat) : Nat :=
  if x ≤ 64 then x ^ 2
  else if x ≤ 1024 then x ^ 2 / 4 + 96 * x - 3072
  else x ^ 2 / 16 + 480 * x - 199680

/-- EIP-198's adjusted exponent length, from the exponent's length and the number in its first
`min expLen 32` bytes: the index of that number's highest bit, and eight a byte beyond 32. -/
def adjustedExpLen (expLen head : Nat) : Nat :=
  if expLen ≤ 32 then Nat.log2 head else 8 * (expLen - 32) + Nat.log2 head

/-- The base length, the first word of the input. -/
def baseLenOf (input : List UInt8) : Nat := field input 0 32

/-- The exponent length, the second word. -/
def expLenOf (input : List UInt8) : Nat := field input 32 32

/-- The modulus length, the third word. -/
def modLenOf (input : List UInt8) : Nat := field input 64 32

/-- EIP-198's price of an input, capped at `2 ^ 64 - 1`. -/
def eip198Gas (input : List UInt8) : Nat :=
  min (2 ^ 64 - 1)
    (multComplexity (max (baseLenOf input) (modLenOf input)) *
        max (adjustedExpLen (expLenOf input)
          (field input (96 + baseLenOf input) (min (expLenOf input) 32))) 1 / 20)

/-! ## `RequiredGas` is the EIP-198 price -/

/-- The three lengths are read without a wrap. -/
theorem getData_lengths (input : List UInt8) :
    getData input 0 32 = some (paddedSlice input 0 32) ∧
      getData input 32 32 = some (paddedSlice input 32 32) ∧
      getData input 64 32 = some (paddedSlice input 64 32) :=
  ⟨getData_eq_some (by omega) (by norm_num), getData_eq_some (by omega) (by norm_num),
    getData_eq_some (by omega) (by norm_num)⟩

/-- `input[96:]`, or the empty `input[:0]`, is what follows the lengths. -/
theorem tail_eq (input : List UInt8) :
    (if input.length > 96 then input.drop 96 else []) = input.drop 96 := by
  split_ifs with h
  · rfl
  · rw [List.drop_eq_nil_of_le (by omega)]

/-- The exponent's head is EIP-198's first `min expLen 32` bytes of the exponent. -/
theorem expHead_eq {input : List UInt8} (hlen : input.length < 2 ^ 63) (baseLen expLen : Nat) :
    BigModExp.expHead (input.drop 96) baseLen expLen =
      some (field input (96 + baseLen) (min expLen 32)) := by
  unfold BigModExp.expHead
  by_cases hshort : (input.drop 96).length ≤ baseLen
  -- the base takes the whole input: the exponent reads as zeros
  · rw [if_pos hshort, field_of_le _ (by simp at hshort; omega)]
    rfl
  · rw [if_neg hshort]
    have hb : baseLen % 2 ^ 64 = baseLen := Nat.mod_eq_of_lt (by simp at hshort; omega)
    have hmin : min baseLen (input.drop 96).length = baseLen := Nat.min_eq_left (by omega)
    by_cases hlong : expLen > 32
    · rw [if_pos hlong, hb, getData_eq_some (by rw [hmin]; simp at hshort; omega) (by norm_num),
        Option.map_eq_map, Option.map_some, Nat.min_eq_right (by omega), ← field_drop]
      rfl
    · rw [if_neg hlong, hb, Nat.mod_eq_of_lt (by omega),
        getData_eq_some (by rw [hmin]; simp at hshort; omega) (by omega),
        Option.map_eq_map, Option.map_some, Nat.min_eq_left (by omega), ← field_drop]
      rfl

/-- `BitLen() - 1`, or zero, is the index of the highest bit. -/
theorem msb_eq (n : Nat) : (if bitLen n > 0 then bitLen n - 1 else 0) = Nat.log2 n := by
  have hsize : bitLen n = Nat.size n := by simp [bitLen]
  rw [hsize]
  rcases Nat.eq_zero_or_pos n with rfl | hpos
  · simp
  · have hlt : Nat.log2 n < Nat.size n := Nat.lt_size.mpr (Nat.log2_self_le (by omega))
    have hle : Nat.size n ≤ Nat.log2 n + 1 := Nat.size_le.mpr Nat.lt_log2_self
    rw [if_pos (by omega)]
    omega

theorem quadGas_eq (x : Nat) : BigModExp.quadGas x = multComplexity x := by
  unfold BigModExp.quadGas multComplexity
  rw [pow_two]
  split_ifs <;> omega

/-- The cap: above 64 bits the price is `2 ^ 64 - 1`. -/
theorem cap_eq (gas : Nat) :
    (if bitLen gas > 64 then some (2 ^ 64 - 1) else some gas) = some (min (2 ^ 64 - 1) gas) := by
  have hfits : bitLen gas ≤ 64 ↔ gas < 2 ^ 64 := by
    rw [bitLen_le_iff]
    simp
  split_ifs with h
  · rw [Nat.min_eq_left (by omega)]
  · rw [Nat.min_eq_right (by omega)]

/-- **`RequiredGas` is the EIP-198 price** of every input. -/
theorem requiredGas_eq {input : List UInt8} (hlen : input.length < 2 ^ 63) :
    BigModExp.requiredGas input = some (eip198Gas input) := by
  obtain ⟨h₀, h₁, h₂⟩ := getData_lengths input
  simp only [BigModExp.requiredGas, h₀, h₁, h₂, Option.bind_eq_bind, Option.bind_some, tail_eq,
    expHead_eq hlen, msb_eq, quadGas_eq, Option.pure_def]
  -- the adjusted exponent length of the code is EIP-198's
  have hadj : ∀ e h : Nat, (if e > 32 then 8 * (e - 32) else 0) + Nat.log2 h = adjustedExpLen e h := by
    intro e h
    unfold adjustedExpLen
    split_ifs <;> omega
  rw [cap_eq, hadj, max_comm (Rlp.bigEndian (paddedSlice input 64 32))]
  rfl

/-! ## The result (`bigModExp.Run`) and the call (`RunPrecompiledContract`) -/

namespace BigModExp

/-- `Run(input)`; `none` is a panic of `getData`. For a positive modulus `base.Exp(base, exp,
mod)` is `base ^ exp % mod`. -/
def run (input : List UInt8) : Option (List UInt8) := do
  let baseLen := Rlp.bigEndian (← getData input 0 32) % 2 ^ 64
  let expLen := Rlp.bigEndian (← getData input 32 32) % 2 ^ 64
  let modLen := Rlp.bigEndian (← getData input 64 32) % 2 ^ 64
  let input := if input.length > 96 then input.drop 96 else []
  -- Handle a special case when both the base and mod length is zero
  if baseLen = 0 ∧ modLen = 0 then pure []
  else do
    -- Retrieve the operands and execute the exponentiation
    let base := Rlp.bigEndian (← getData input 0 baseLen)
    let exp := Rlp.bigEndian (← getData input baseLen expLen)
    let mod := Rlp.bigEndian (← getData input (addU64 baseLen expLen) modLen)
    if bitLen mod = 0 then
      -- Modulo 0 is undefined, return zero
      pure (leftPadBytes [] (wrapI64 modLen))
    else pure (leftPadBytes (bigBytes ((base ^ exp % mod : Nat) : Int)) (wrapI64 modLen))

end BigModExp

/-- A precompiled contract: its price and its run, `none` a panic. -/
structure PrecompiledContract where
  requiredGas : List UInt8 → Option Nat
  run : List UInt8 → Option (Except VmError (List UInt8))

/-- The MODEXP contract; its `Run` returns no error. -/
def bigModExp : PrecompiledContract :=
  ⟨BigModExp.requiredGas, fun input => (BigModExp.run input).map .ok⟩

/-- `RunPrecompiledContract(p, input, contract)` for a contract with `gas` left: the result of
`Run` and the gas the contract has after. -/
def runPrecompiledContract (p : PrecompiledContract) (input : List UInt8) (gas : Nat) :
    Option (Except VmError (List UInt8) × Nat) := do
  let cost ← p.requiredGas input
  -- `contract.UseGas(cost)` takes the price only from a contract that has it
  if gas < cost then pure (.error .outOfGas, gas)
  else (fun ret => (ret, gas - cost)) <$> p.run input

/-- EIP-198's result as a number: `base ^ exp % mod` of the fields after the lengths, zero for
a zero modulus. -/
def eip198Value (input : List UInt8) : Nat :=
  let mod := field input (96 + baseLenOf input + expLenOf input) (modLenOf input)
  if mod = 0 then 0
  else field input 96 (baseLenOf input) ^ field input (96 + baseLenOf input) (expLenOf input) % mod

/-! ## `Run` is the EIP-198 result -/

/-- `LeftPadBytes` to a length the slice fits in: that many bytes, the same number. -/
theorem leftPadBytes_spec {slice : List UInt8} {l : Nat} (h : slice.length ≤ l) :
    (leftPadBytes slice l).length = l ∧ Rlp.bigEndian (leftPadBytes slice l) = Rlp.bigEndian slice := by
  unfold leftPadBytes
  split_ifs with hfull
  · exact ⟨by omega, rfl⟩
  · simp only [Int.toNat_natCast]
    refine ⟨by simp; omega, Rlp.bigEndian_replicate_zero_append _ _⟩

/-- The output of a positive modulus: `modLen` bytes holding `base ^ exp % mod`. -/
theorem output_spec (base exp : Nat) {mod m : Nat} (hmod : mod < 256 ^ m) (hzero : mod ≠ 0) :
    (leftPadBytes (bigBytes ((base ^ exp % mod : Nat) : Int)) m).length = m ∧
      Rlp.bigEndian (leftPadBytes (bigBytes ((base ^ exp % mod : Nat) : Int)) m) = base ^ exp % mod := by
  have hlt : base ^ exp % mod < 256 ^ m := lt_trans (Nat.mod_lt _ (Nat.pos_of_ne_zero hzero)) hmod
  obtain ⟨hlen, hval⟩ := leftPadBytes_spec (length_bigBytes_le hlt)
  rw [hval, bigEndian_bigBytes]
  exact ⟨hlen, rfl⟩

/-- The zero modulus: `modLen` zero bytes. -/
theorem zeros_spec {m : Nat} (hm : m < 2 ^ 63) :
    (leftPadBytes [] (wrapI64 m)).length = m ∧ Rlp.bigEndian (leftPadBytes [] (wrapI64 m)) = 0 := by
  have hint : wrapI64 m = m := wrapI64_of_mem (by omega) (by exact_mod_cast hm)
  rw [hint]
  exact leftPadBytes_spec (by simp)

/-- **`Run` is the EIP-198 result** when its lengths neither wrap nor leave `int`: `modLen`
bytes holding `base ^ exp % mod`, zero for a zero modulus. -/
theorem run_eq {input : List UInt8} (hlen : input.length < 2 ^ 63)
    (hsmall : baseLenOf input = 0 ∧ modLenOf input = 0 ∨
      baseLenOf input + expLenOf input + modLenOf input < 2 ^ 63) :
    ∃ out, BigModExp.run input = some out ∧ out.length = modLenOf input ∧
      Rlp.bigEndian out = eip198Value input := by
  obtain ⟨h₀, h₁, h₂⟩ := getData_lengths input
  have hb : Rlp.bigEndian (paddedSlice input 0 32) = baseLenOf input := rfl
  have he : Rlp.bigEndian (paddedSlice input 32 32) = expLenOf input := rfl
  have hm : Rlp.bigEndian (paddedSlice input 64 32) = modLenOf input := rfl
  simp only [BigModExp.run, h₀, h₁, h₂, Option.bind_eq_bind, Option.bind_some, tail_eq, hb, he, hm]
  unfold eip198Value
  generalize baseLenOf input = b at hsmall ⊢
  generalize expLenOf input = e at hsmall ⊢
  generalize modLenOf input = m at hsmall ⊢
  by_cases hzero : b = 0 ∧ m = 0
  -- no base and no modulus: nothing to compute
  · obtain ⟨rfl, rfl⟩ := hzero
    exact ⟨[], by simp, rfl, rfl⟩
  have hsum : b + e + m < 2 ^ 63 := hsmall.resolve_left hzero
  have htail : (input.drop 96).length < 2 ^ 63 := by simp; omega
  rw [Nat.mod_eq_of_lt (by omega : b < 2 ^ 64), Nat.mod_eq_of_lt (by omega : m < 2 ^ 64),
    if_neg hzero, Nat.mod_eq_of_lt (by omega : e < 2 ^ 64), addU64_of_lt (by omega),
    getData_eq_some (by omega) (by omega), getData_eq_some (by omega) (by omega),
    getData_eq_some (by omega) (by omega)]
  simp only [Option.bind_some]
  -- the operands are EIP-198's fields
  have hfield : ∀ s l, Rlp.bigEndian (paddedSlice (input.drop 96) s l) = field input (96 + s) l :=
    fun s l => field_drop input 96 s l
  rw [hfield, hfield, hfield, Nat.add_zero, ← Nat.add_assoc]
  have hmod_lt := field_lt input (96 + b + e) m
  generalize field input (96 + b + e) m = mod at hmod_lt ⊢
  by_cases hmod : mod = 0
  · subst hmod
    obtain ⟨hl, hv⟩ := zeros_spec (m := m) (by omega)
    exact ⟨_, by simp [bitLen], hl, by rw [hv, if_pos rfl]⟩
  · have hbits : bitLen (mod : Int) ≠ 0 := by
      simp only [bitLen, Int.natAbs_natCast, ne_eq, Nat.size_eq_zero]
      exact hmod
    have hint : wrapI64 m = m := wrapI64_of_mem (by omega) (by exact_mod_cast (by omega : m < 2 ^ 63))
    obtain ⟨hl, hv⟩ := output_spec (field input 96 b) (field input (96 + b) e) hmod_lt hmod
    rw [if_neg hbits, hint]
    exact ⟨_, rfl, hl, by rw [hv, if_neg hmod]⟩

/-- Lengths of one byte each, and the base 3, the exponent 5 and the modulus 7. -/
def modExpSample : List UInt8 :=
  List.replicate 31 0 ++ [1] ++ List.replicate 31 0 ++ [1] ++ List.replicate 31 0 ++ [1] ++ [3, 5, 7]

/-- `3 ^ 5 % 7` in one byte. -/
example : BigModExp.run modExpSample = some [5] := by
  decide +kernel

/-! ## What the price guarantees -/

theorem multComplexity_pos {x : Nat} (hx : 0 < x) : 0 < multComplexity x := by
  unfold multComplexity
  split_ifs
  · positivity
  · omega
  · omega

/-- The quadratic is at least a sixteenth of the square. -/
theorem sq_div_le_multComplexity (x : Nat) : x * x / 16 ≤ multComplexity x := by
  unfold multComplexity
  rw [pow_two]
  split_ifs <;> omega

/-- **A price below `2 ^ 61` bounds the lengths**: there is no base and no modulus, or the three
lengths add up to less than `2 ^ 63`. -/
theorem lengths_of_gas {input : List UInt8} (h : eip198Gas input < 2 ^ 61) :
    baseLenOf input = 0 ∧ modLenOf input = 0 ∨
      baseLenOf input + expLenOf input + modLenOf input < 2 ^ 63 := by
  unfold eip198Gas at h
  generalize hadj : adjustedExpLen (expLenOf input)
    (field input (96 + baseLenOf input) (min (expLenOf input) 32)) = adj at h
  -- eight gas a byte of the exponent beyond 32
  have hadj_ge : 8 * (expLenOf input - 32) ≤ adj := by
    rw [← hadj]
    unfold adjustedExpLen
    split_ifs <;> omega
  generalize baseLenOf input = b at h ⊢
  generalize modLenOf input = m at h ⊢
  generalize expLenOf input = e at hadj_ge ⊢
  -- the price before its cap
  have hprice : multComplexity (max b m) * max adj 1 < 2 ^ 61 * 20 := by
    have hcap : multComplexity (max b m) * max adj 1 / 20 < 2 ^ 61 := by omega
    exact (Nat.div_lt_iff_lt_mul (by norm_num)).mp hcap
  by_cases hx : max b m = 0
  · left
    omega
  right
  have hM := multComplexity_pos (Nat.pos_of_ne_zero hx)
  have hA : 0 < max adj 1 := lt_of_lt_of_le Nat.one_pos (le_max_right _ _)
  -- each factor is below the product
  have hMlt : multComplexity (max b m) < 2 ^ 61 * 20 :=
    lt_of_le_of_lt (Nat.le_mul_of_pos_right _ hA) hprice
  have hAlt : max adj 1 < 2 ^ 61 * 20 := lt_of_le_of_lt (Nat.le_mul_of_pos_left _ hM) hprice
  -- the base and modulus lengths: from `2 ^ 36` on the quadratic is past the bound
  have hx36 : max b m < 2 ^ 36 := by
    by_contra hge
    have hsq : 2 ^ 36 * 2 ^ 36 ≤ max b m * max b m := Nat.mul_le_mul (by omega) (by omega)
    have := sq_div_le_multComplexity (max b m)
    omega
  omega

/-- **MODEXP is priced and run as EIP-198 says for every caller with less than `2 ^ 61` gas**:
`RequiredGas` is the EIP-198 price, and `RunPrecompiledContract` runs out of gas and leaves the
gas as it was, or charges that price and returns the EIP-198 result in `modLen` bytes, never a
panic. -/
theorem runPrecompiledContract_modExp {input : List UInt8} (hlen : input.length < 2 ^ 63)
    {gas : Nat} (hgas : gas < 2 ^ 61) :
    BigModExp.requiredGas input = some (eip198Gas input) ∧
      (runPrecompiledContract bigModExp input gas = some (.error .outOfGas, gas) ∨
        ∃ out, runPrecompiledContract bigModExp input gas = some (.ok out, gas - eip198Gas input) ∧
          out.length = modLenOf input ∧ Rlp.bigEndian out = eip198Value input) := by
  have hcost : bigModExp.requiredGas input = some (eip198Gas input) := requiredGas_eq hlen
  refine ⟨hcost, ?_⟩
  unfold runPrecompiledContract
  rw [hcost, Option.bind_eq_bind, Option.bind_some]
  by_cases hout : gas < eip198Gas input
  · left
    rw [if_pos hout]
    rfl
  · right
    rw [if_neg hout]
    obtain ⟨out, hrun, hl, hv⟩ := run_eq hlen (lengths_of_gas (by omega))
    refine ⟨out, ?_, hl, hv⟩
    simp [bigModExp, hrun]

theorem runPrecompiledContract_modExp_small :
    modExpSample.length < 2 ^ 63 ∧ (100 : Nat) < 2 ^ 61 ∧
      (BigModExp.requiredGas modExpSample = some (eip198Gas modExpSample) ∧
        (runPrecompiledContract bigModExp modExpSample 100 = some (.error .outOfGas, 100) ∨
          ∃ out, runPrecompiledContract bigModExp modExpSample 100 =
              some (.ok out, 100 - eip198Gas modExpSample) ∧
            out.length = modLenOf modExpSample ∧ Rlp.bigEndian out = eip198Value modExpSample)) :=
  ⟨by decide, by decide, runPrecompiledContract_modExp (by decide) (by decide)⟩

/-! ## What the price does not guarantee -/

/-- A 32-byte field's highest bit is below 256. -/
theorem log2_field_lt (input : List UInt8) (start : Nat) : Nat.log2 (field input start 32) < 256 := by
  rcases Nat.eq_zero_or_pos (field input start 32) with h | h
  · rw [h, Nat.log2_zero]
    norm_num
  · apply (Nat.log2_lt (by omega)).mpr
    have hlt := field_lt input start 32
    norm_num at hlt ⊢
    exact hlt

/-- **Below `2 ^ 63` the price does not keep `Run` from panicking.** A base length of one, a
modulus length of at most one and an exponent length of `2 ^ 64 - 1` cost less than `2 ^ 63`.
With a byte after the lengths, `Run` reads the exponent with `getData(input, 1, 2 ^ 64 - 1)`,
whose end `1 + 2 ^ 64 - 1` wraps to zero, and `input[1:0]` panics. -/
theorem modExp_run_panics_within_gas {input : List UInt8} (hlen : input.length < 2 ^ 63)
    (htail : 96 < input.length) (hbase : baseLenOf input = 1) (hmod : modLenOf input ≤ 1)
    (hexp : expLenOf input = 2 ^ 64 - 1) :
    (∃ g, BigModExp.requiredGas input = some g ∧ g ≤ 2 ^ 63) ∧ BigModExp.run input = none := by
  constructor
  -- the price: a quadratic of one, and eight gas a byte of the exponent beyond 32
  · refine ⟨eip198Gas input, requiredGas_eq hlen, ?_⟩
    have hhead := log2_field_lt input (96 + baseLenOf input)
    have hmult : multComplexity (max (baseLenOf input) (modLenOf input)) = 1 := by
      rw [hbase, Nat.max_eq_left hmod]
      rfl
    unfold eip198Gas adjustedExpLen
    rw [hmult, hexp, Nat.min_eq_right (by norm_num : (32 : Nat) ≤ 2 ^ 64 - 1), if_neg (by norm_num)]
    omega
  -- the run: the base is read, the exponent's slice panics
  · obtain ⟨h₀, h₁, h₂⟩ := getData_lengths input
    have hb : Rlp.bigEndian (paddedSlice input 0 32) = baseLenOf input := rfl
    have he : Rlp.bigEndian (paddedSlice input 32 32) = expLenOf input := rfl
    have hm : Rlp.bigEndian (paddedSlice input 64 32) = modLenOf input := rfl
    have htail_len : 0 < (input.drop 96).length := by simp; omega
    simp only [BigModExp.run, h₀, h₁, h₂, Option.bind_eq_bind, Option.bind_some, tail_eq, hb, he,
      hm, hbase, hexp]
    rw [if_neg (by norm_num), getData_eq_some (by omega) (by norm_num),
      getData_eq_none (by simp; omega) (by norm_num) (by omega)]
    rfl

/-- The failing input: lengths one, `2 ^ 64 - 1` and one, and the base byte 2. -/
def wrapInput : List UInt8 :=
  List.replicate 31 0 ++ [1] ++ List.replicate 24 0 ++ List.replicate 8 255 ++
    List.replicate 31 0 ++ [1] ++ [2]

theorem modExp_run_panics_wrapInput :
    wrapInput.length < 2 ^ 63 ∧ 96 < wrapInput.length ∧ baseLenOf wrapInput = 1 ∧
      modLenOf wrapInput ≤ 1 ∧ expLenOf wrapInput = 2 ^ 64 - 1 ∧
      ((∃ g, BigModExp.requiredGas wrapInput = some g ∧ g ≤ 2 ^ 63) ∧
        BigModExp.run wrapInput = none) :=
  ⟨by decide, by decide, by decide, by decide, by decide,
    modExp_run_panics_within_gas (by decide) (by decide) (by decide) (by decide) (by decide)⟩

end GoMetadium.Vm
