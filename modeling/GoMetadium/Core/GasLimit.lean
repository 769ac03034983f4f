import GoMetadium.Lib.GoInt

set_option autoImplicit false

/-! # The gas limit of a new block

`CalcGasLimit(parent, gasFloor, gasCeil)` (`core/block_validator.go`) is the gas limit that
`worker.commitNewWork` puts in the header of the block it builds on `parent`. It returns
`params.FixedGasLimit` when that is set: it starts as `0x10000000`, the `--fixedgaslimit` flag
changes it, and `0` means no fixed limit. Otherwise it moves the parent's limit up by
`contrib`, about `1.5 / 1024` of the gas the parent used, and down by `decay`, `1 / 1024` of
the parent's limit less one; it clamps the result to `MinGasLimit`, and hones it towards
`[gasFloor, gasCeil]` when it falls outside.

`verifyHeader` (`consensus/ethash/consensus.go`) checks a header's gas limit against its
parent's: at most `2 ^ 63 - 1`, the gas used at most the limit, and the limit at least
`MinGasLimit` and less than `parent.GasLimit / 1024` away from the parent's, the distance
computed in `int64`.

Every value is a `uint64` in the source, and the model wraps each operation as Go does. Of a
header only the two gas fields are kept.
-/

namespace GoMetadium.Core

open GoMetadium.Go

/-! ## Protocol constants (`params/protocol_params.go`) -/

/-- `params.GasLimitBoundDivisor`. -/
def gasLimitBoundDivisor : Nat := 1024

/-- `params.MinGasLimit`. -/
def minGasLimit : Nat := 5000

/-- The value `params.FixedGasLimit` starts with. -/
def defaultFixedGasLimit : Nat := 0x10000000

/-! ## The gas limit rules -/

/-- The gas fields of a header. -/
structure GasHeader where
  gasLimit : Nat
  gasUsed : Nat
  deriving DecidableEq, Repr

/-- `CalcGasLimit(parent, gasFloor, gasCeil)`, where `fixedGasLimit` is the value of
`params.FixedGasLimit`. -/
def calcGasLimit (fixedGasLimit : Nat) (parent : GasHeader) (gasFloor gasCeil : Nat) : Nat :=
  if fixedGasLimit ≠ 0 then fixedGasLimit
  else
    let contrib := addU64 parent.gasUsed (parent.gasUsed / 2) / gasLimitBoundDivisor
    let decay := subU64 (parent.gasLimit / gasLimitBoundDivisor) 1
    let limit := addU64 (subU64 parent.gasLimit decay) contrib
    let limit := if limit < minGasLimit then minGasLimit else limit
    -- outside the allowed range, hone towards it
    if limit < gasFloor then
      let limit := addU64 parent.gasLimit decay
      if limit > gasFloor then gasFloor else limit
    else if limit > gasCeil then
      let limit := subU64 parent.gasLimit decay
      if limit < gasCeil then gasCeil else limit
    else limit

/-- The errors of the gas checks of `verifyHeader`, with the values they print. -/
inductive GasError where
  /-- `"invalid gasLimit: have %v, max %v"`. -/
  | gasLimitCap (limit cap : Nat)
  /-- `"invalid gasUsed: have %d, gasLimit %d"`. -/
  | gasUsed (used limit : Nat)
  /-- `"invalid gas limit: have %d, want %d += %d"`. -/
  | gasLimit (limit parentLimit bound : Nat)
  deriving DecidableEq, Repr

/-- The gas checks of `verifyHeader(chain, header, parent, ...)`, in the source's order. -/
def verifyGasLimit (header parent : GasHeader) : Except GasError Unit := do
  let cap := 0x7fffffffffffffff
  if header.gasLimit > cap then throw (.gasLimitCap header.gasLimit cap)
  if header.gasUsed > header.gasLimit then throw (.gasUsed header.gasUsed header.gasLimit)
  -- the distance to the parent's limit, in `int64`
  let diff := wrapI64 (wrapI64 parent.gasLimit - wrapI64 header.gasLimit)
  let diff := if diff < 0 then wrapI64 (diff * -1) else diff
  let limit := parent.gasLimit / gasLimitBoundDivisor
  if uint64OfInt diff ≥ limit ∨ header.gasLimit < minGasLimit then
    throw (.gasLimit header.gasLimit parent.gasLimit limit)

/-! ## The gas checks -/

/-- For two limits below `2 ^ 63`, the `int64` distance `verifyHeader` computes is the true
one: no subtraction or negation wraps. -/
theorem int64Dist_eq {a b : Nat} (ha : a ≤ 2 ^ 63 - 1) (hb : b ≤ 2 ^ 63 - 1) :
    uint64OfInt
        (if wrapI64 (wrapI64 a - wrapI64 b) < 0 then wrapI64 (wrapI64 (wrapI64 a - wrapI64 b) * -1)
        else wrapI64 (wrapI64 a - wrapI64 b)) = ((a : Int) - b).natAbs := by
  have hwa : wrapI64 a = a := wrapI64_of_mem (by omega) (by omega)
  have hwb : wrapI64 b = b := wrapI64_of_mem (by omega) (by omega)
  have hwd : wrapI64 ((a : Int) - b) = a - b := wrapI64_of_mem (by omega) (by omega)
  rw [hwa, hwb, hwd]
  split_ifs with hneg
  · rw [wrapI64_of_mem (by omega) (by omega), uint64OfInt_of_mem (by omega) (by omega)]
    omega
  · rw [uint64OfInt_of_mem (by omega) (by omega)]
    omega

/-- Against a parent whose limit is below `2 ^ 63`, the gas checks pass exactly when the
header's limit is below `2 ^ 63` and at least `MinGasLimit`, its gas used is at most its limit,
and its limit is less than `parent.GasLimit / 1024` away from the parent's. -/
theorem verifyGasLimit_eq_ok {header parent : GasHeader} (hp : parent.gasLimit ≤ 2 ^ 63 - 1) :
    verifyGasLimit header parent = .ok () ↔
      header.gasLimit ≤ 2 ^ 63 - 1 ∧ header.gasUsed ≤ header.gasLimit ∧
        ((parent.gasLimit : Int) - header.gasLimit).natAbs < parent.gasLimit / gasLimitBoundDivisor ∧
        minGasLimit ≤ header.gasLimit := by
  by_cases hcap : header.gasLimit ≤ 2 ^ 63 - 1
  case neg =>
    have hgt : header.gasLimit > 0x7fffffffffffffff := by omega
    simp [verifyGasLimit, hgt, throw, throwThe, MonadExceptOf.throw, bind, Except.bind]
  case pos =>
    have hle : ¬ header.gasLimit > 0x7fffffffffffffff := by omega
    simp only [verifyGasLimit, hle, if_false, int64Dist_eq hp hcap]
    by_cases hused : header.gasUsed ≤ header.gasLimit
    · have hnlt : ¬ header.gasLimit < header.gasUsed := by omega
      simp only [hnlt, hused, throw, throwThe, MonadExceptOf.throw, bind, Except.bind, pure,
        Except.pure, if_false, gasLimitBoundDivisor, minGasLimit]
      by_cases hbound : ((parent.gasLimit : Int) - header.gasLimit).natAbs ≥ parent.gasLimit / 1024 ∨
          header.gasLimit < 5000
      · simp only [hbound, if_true, reduceCtorEq, false_iff]
        omega
      · simp only [hbound, if_false, true_iff, true_and]
        refine ⟨hcap, ?_, ?_⟩
        · omega
        · omega
    · have hlt : header.gasLimit < header.gasUsed := by omega
      simp [hlt, hused, throw, throwThe, MonadExceptOf.throw, bind, Except.bind]

/-! ## `CalcGasLimit` in range

With no fixed limit and a parent limit of at least `MinGasLimit` and below `2 ^ 63`, no
operation of `CalcGasLimit` wraps, and its result is one of three. -/

section InRange

variable {parent : GasHeader}

/-- The three outcomes of `CalcGasLimit` with no fixed limit: the parent's limit moved by
`contrib` and `decay` and clamped to `MinGasLimit`, when that lies in `[gasFloor, gasCeil]`;
below the floor, the parent's limit raised by `decay` but not past the floor; above the
ceiling, the parent's limit lowered by `decay` but not past the ceiling. -/
theorem calcGasLimit_cases (gasFloor gasCeil : Nat) (hmin : minGasLimit ≤ parent.gasLimit)
    (hmax : parent.gasLimit ≤ 2 ^ 63 - 1) (hused : parent.gasUsed ≤ parent.gasLimit) :
    ∃ decay limit, decay + 1 = parent.gasLimit / 1024 ∧
      limit = max 5000 (parent.gasLimit - decay + (parent.gasUsed + parent.gasUsed / 2) / 1024) ∧
      (limit < gasFloor ∧
          calcGasLimit 0 parent gasFloor gasCeil = min (parent.gasLimit + decay) gasFloor ∨
        gasFloor ≤ limit ∧ gasCeil < limit ∧
          calcGasLimit 0 parent gasFloor gasCeil = max (parent.gasLimit - decay) gasCeil ∨
        gasFloor ≤ limit ∧ limit ≤ gasCeil ∧ calcGasLimit 0 parent gasFloor gasCeil = limit) := by
  unfold minGasLimit at hmin
  have hdecay : subU64 (parent.gasLimit / 1024) 1 = parent.gasLimit / 1024 - 1 :=
    subU64_of_le (by omega) (by omega)
  have hcontrib : addU64 parent.gasUsed (parent.gasUsed / 2) = parent.gasUsed + parent.gasUsed / 2 :=
    addU64_of_lt (by omega)
  have hdown : subU64 parent.gasLimit (parent.gasLimit / 1024 - 1) =
      parent.gasLimit - (parent.gasLimit / 1024 - 1) :=
    subU64_of_le (by omega) (by omega)
  have hup : addU64 parent.gasLimit (parent.gasLimit / 1024 - 1) =
      parent.gasLimit + (parent.gasLimit / 1024 - 1) :=
    addU64_of_lt (by omega)
  have hmoved : addU64 (parent.gasLimit - (parent.gasLimit / 1024 - 1))
      ((parent.gasUsed + parent.gasUsed / 2) / 1024) =
      parent.gasLimit - (parent.gasLimit / 1024 - 1) + (parent.gasUsed + parent.gasUsed / 2) / 1024 :=
    addU64_of_lt (by omega)
  refine ⟨parent.gasLimit / 1024 - 1, _, by omega, rfl, ?_⟩
  simp only [calcGasLimit, ne_eq, not_true_eq_false, if_false, gasLimitBoundDivisor, minGasLimit,
    hdecay, hcontrib, hdown, hup, hmoved]
  split_ifs <;> omega

/-- A bound on the move: with no fixed limit, the miner's limit is never more than
`parent.GasLimit / 1024` away from the parent's. The verifier wants it strictly less; the
move reaches the bound only when the parent's limit is below `5 * 1024`, where rounding
leaves `contrib` two units above `2 * decay`. -/
theorem calcGasLimit_dist_le {gasFloor gasCeil : Nat} (hmin : minGasLimit ≤ parent.gasLimit)
    (hmax : parent.gasLimit ≤ 2 ^ 63 - 1) (hused : parent.gasUsed ≤ parent.gasLimit) :
    ((parent.gasLimit : Int) - calcGasLimit 0 parent gasFloor gasCeil).natAbs ≤
      parent.gasLimit / gasLimitBoundDivisor := by
  obtain ⟨decay, limit, hdecay, hlimit, hcases⟩ := calcGasLimit_cases gasFloor gasCeil hmin hmax hused
  unfold minGasLimit gasLimitBoundDivisor at *
  generalize calcGasLimit 0 parent gasFloor gasCeil = g at hcases ⊢
  omega

/-- The bound is reached: a full parent block at `MinGasLimit` moves by `4`. -/
theorem calcGasLimit_dist_le_fullMinimalParent :
    (minGasLimit ≤ 5000 ∧ 5000 ≤ 2 ^ 63 - 1 ∧ 5000 ≤ 5000) ∧
      ((5000 : Int) - calcGasLimit 0 ⟨5000, 5000⟩ 5000 8000000).natAbs ≤ 5000 / gasLimitBoundDivisor :=
  ⟨⟨by decide, by decide, le_refl _⟩,
    calcGasLimit_dist_le (by decide : minGasLimit ≤ (⟨5000, 5000⟩ : GasHeader).gasLimit) (by decide)
      (le_refl _)⟩

/-- From a parent limit of `5 * 1024` on, the move is strictly inside the verifier's bound. -/
theorem calcGasLimit_dist_lt {gasFloor gasCeil : Nat} (hmax : parent.gasLimit ≤ 2 ^ 63 - 1)
    (hused : parent.gasUsed ≤ parent.gasLimit) (hlarge : 5 * gasLimitBoundDivisor ≤ parent.gasLimit) :
    ((parent.gasLimit : Int) - calcGasLimit 0 parent gasFloor gasCeil).natAbs <
      parent.gasLimit / gasLimitBoundDivisor := by
  have hmin : minGasLimit ≤ parent.gasLimit := by
    unfold minGasLimit gasLimitBoundDivisor at *
    omega
  obtain ⟨decay, limit, hdecay, hlimit, hcases⟩ := calcGasLimit_cases gasFloor gasCeil hmin hmax hused
  unfold minGasLimit gasLimitBoundDivisor at *
  generalize calcGasLimit 0 parent gasFloor gasCeil = g at hcases ⊢
  omega

/-- With no fixed limit and a band of at least `MinGasLimit` and below `2 ^ 63`, the miner's
limit lies in that range too. -/
theorem calcGasLimit_mem_range {gasFloor gasCeil : Nat} (hmin : minGasLimit ≤ parent.gasLimit)
    (hmax : parent.gasLimit ≤ 2 ^ 63 - 1) (hused : parent.gasUsed ≤ parent.gasLimit)
    (hfloor : minGasLimit ≤ gasFloor) (hband : gasFloor ≤ gasCeil) (hceil : gasCeil ≤ 2 ^ 63 - 1) :
    minGasLimit ≤ calcGasLimit 0 parent gasFloor gasCeil ∧
      calcGasLimit 0 parent gasFloor gasCeil ≤ 2 ^ 63 - 1 := by
  obtain ⟨decay, limit, hdecay, hlimit, hcases⟩ := calcGasLimit_cases gasFloor gasCeil hmin hmax hused
  unfold minGasLimit at *
  generalize calcGasLimit 0 parent gasFloor gasCeil = g at hcases ⊢
  omega

end InRange

/-! ## The band -/

/-- `x` lies in `[lo, hi]`. -/
def InBand (lo hi x : Nat) : Prop := lo ≤ x ∧ x ≤ hi

instance (lo hi x : Nat) : Decidable (InBand lo hi x) := inferInstanceAs (Decidable (_ ∧ _))

/-- How far `x` lies outside `[lo, hi]`. -/
def bandDist (lo hi x : Nat) : Nat := (lo - x) + (x - hi)

/-- With no fixed limit, a parent limit in the band gives a limit in the band, and a parent
limit outside it gives a limit in the band or strictly closer to it. -/
theorem calcGasLimit_band {parent : GasHeader} {gasFloor gasCeil : Nat}
    (hmin : minGasLimit ≤ parent.gasLimit) (hmax : parent.gasLimit ≤ 2 ^ 63 - 1)
    (hused : parent.gasUsed ≤ parent.gasLimit) (hband : gasFloor ≤ gasCeil) :
    (InBand gasFloor gasCeil parent.gasLimit →
        InBand gasFloor gasCeil (calcGasLimit 0 parent gasFloor gasCeil)) ∧
      (¬ InBand gasFloor gasCeil parent.gasLimit →
        InBand gasFloor gasCeil (calcGasLimit 0 parent gasFloor gasCeil) ∨
          bandDist gasFloor gasCeil (calcGasLimit 0 parent gasFloor gasCeil) <
            bandDist gasFloor gasCeil parent.gasLimit) := by
  obtain ⟨decay, limit, hdecay, hlimit, hcases⟩ := calcGasLimit_cases gasFloor gasCeil hmin hmax hused
  unfold minGasLimit at hmin
  unfold InBand bandDist
  generalize calcGasLimit 0 parent gasFloor gasCeil = g at hcases ⊢
  constructor
  · intro hin
    omega
  · intro hout
    omega

/-- A parent limit below the default band of `8000000` moves towards it. -/
theorem calcGasLimit_band_belowFloor :
    (minGasLimit ≤ 6000000 ∧ 6000000 ≤ 2 ^ 63 - 1 ∧ 6000000 ≤ 6000000 ∧ 8000000 ≤ 8000000) ∧
      (InBand 8000000 8000000 (calcGasLimit 0 ⟨6000000, 6000000⟩ 8000000 8000000) ∨
        bandDist 8000000 8000000 (calcGasLimit 0 ⟨6000000, 6000000⟩ 8000000 8000000) <
          bandDist 8000000 8000000 6000000) :=
  ⟨⟨by decide, by decide, le_refl _, le_refl _⟩,
    (calcGasLimit_band (by decide) (by decide) (le_refl _) (le_refl _)).2 (by decide)⟩

/-! ## Verification of the miner's limit -/

/-- From a parent limit of `5 * 1024` on, with no fixed limit and a band of at least
`MinGasLimit` and below `2 ^ 63`, the limit the miner chooses passes every gas check of
`verifyHeader`, whatever gas the new block uses up to it. -/
theorem calcGasLimit_verifies {parent : GasHeader} {gasFloor gasCeil used : Nat}
    (hmax : parent.gasLimit ≤ 2 ^ 63 - 1) (hused : parent.gasUsed ≤ parent.gasLimit)
    (hfloor : minGasLimit ≤ gasFloor) (hband : gasFloor ≤ gasCeil) (hceil : gasCeil ≤ 2 ^ 63 - 1)
    (hlarge : 5 * gasLimitBoundDivisor ≤ parent.gasLimit)
    (hu : used ≤ calcGasLimit 0 parent gasFloor gasCeil) :
    verifyGasLimit ⟨calcGasLimit 0 parent gasFloor gasCeil, used⟩ parent = .ok () := by
  have hmin : minGasLimit ≤ parent.gasLimit := by
    unfold minGasLimit gasLimitBoundDivisor at *
    omega
  obtain ⟨hlo, hhi⟩ := calcGasLimit_mem_range hmin hmax hused hfloor hband hceil
  rw [verifyGasLimit_eq_ok hmax]
  exact ⟨hhi, hu, calcGasLimit_dist_lt hmax hused hlarge, hlo⟩

/-- The default band of `8000000` and a full parent block at it. -/
theorem calcGasLimit_verifies_default :
    (8000000 ≤ 2 ^ 63 - 1 ∧ 8000000 ≤ 8000000 ∧ minGasLimit ≤ 8000000 ∧ 8000000 ≤ 8000000 ∧
        8000000 ≤ 2 ^ 63 - 1 ∧ 5 * gasLimitBoundDivisor ≤ 8000000 ∧
        8000000 ≤ calcGasLimit 0 ⟨8000000, 8000000⟩ 8000000 8000000) ∧
      verifyGasLimit ⟨calcGasLimit 0 ⟨8000000, 8000000⟩ 8000000 8000000, 8000000⟩ ⟨8000000, 8000000⟩ =
        .ok () :=
  ⟨⟨by decide, le_refl _, by decide, le_refl _, by decide, by decide, by decide⟩,
    calcGasLimit_verifies (by decide) (le_refl _) (by decide) (le_refl _) (by decide) (by decide)
      (by decide)⟩

/-- Below `5 * 1024` the miner can choose a limit its own verifier rejects: a full parent
block at `MinGasLimit` and a band that holds `5004` give `5004`, which lies
`4 = 5000 / 1024` from the parent's limit, where `verifyHeader` wants less than `4`. -/
theorem calcGasLimit_fullMinimalParent :
    calcGasLimit 0 ⟨5000, 5000⟩ 5000 8000000 = 5004 ∧
      verifyGasLimit ⟨5004, 0⟩ ⟨5000, 5000⟩ = .error (.gasLimit 5004 5000 4) := by
  decide

end GoMetadium.Core
