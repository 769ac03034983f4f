import Mathlib

/-!
# Node IDs and their distances

The two distance functions of `p2p/enode/node.go` the discovery table uses, over 32-byte IDs:
`LogDist`, the bit length of `a XOR b` by a loop over leading zero bytes, which picks a node's
bucket, and `DistCmp`, which compares `a XOR target` and `b XOR target` byte by byte and orders
the nodes the table returns for a lookup.

`distCmp_eq` reads `DistCmp` as the comparison of the XOR distances taken as big-endian numbers
(`distance`), the metric of Kademlia; `logDist_le` bounds the log distance by the ID's 256 bits,
so that the table's bucket index is always in range.
-/

set_option autoImplicit false

namespace GoMetadium.P2p

/-- `enode.ID`, a `[32]byte`. -/
abbrev ID := Vector UInt8 32

/-- `bits.Len8`: the number of bits of a byte. -/
def len8 (x : UInt8) : Nat := if x = 0 then 0 else x.toNat.log2 + 1

/-- `bits.LeadingZeros8`. -/
def leadingZeros8 (x : UInt8) : Nat := 8 - len8 x

/-- The loop of `LogDist`: eight for every equal byte, then the leading zeros of the first
differing one. -/
def logDistLz : List UInt8 → List UInt8 → Nat
  | x :: xs, y :: ys => if x ^^^ y = 0 then 8 + logDistLz xs ys else leadingZeros8 (x ^^^ y)
  | _, _ => 0

/-- `LogDist(a, b)`, the logarithmic distance `log2(a ^ b)`. -/
def logDist (a b : ID) : Nat := a.toList.length * 8 - logDistLz a.toList b.toList

/-- The loop of `DistCmp`: the sign of the first byte where `a ^ target` and `b ^ target`
differ. -/
def distCmpLoop : List UInt8 → List UInt8 → List UInt8 → Int
  | t :: ts, a :: as, b :: bs =>
    if a ^^^ t > b ^^^ t then 1 else if a ^^^ t < b ^^^ t then -1 else distCmpLoop ts as bs
  | _, _, _ => 0

/-- `DistCmp(target, a, b)`: compares the distances of `a` and `b` to `target`. -/
def distCmp (target a b : ID) : Int := distCmpLoop target.toList a.toList b.toList

theorem logDist_le (a b : ID) : logDist a b ≤ 256 := by
  unfold logDist
  rw [Vector.length_toList]
  omega

/-! ## The XOR metric -/

/-- A byte string read as a big-endian number. -/
def beValue : List UInt8 → Nat
  | [] => 0
  | x :: xs => x.toNat * 256 ^ xs.length + beValue xs

/-- **The distance of `a` to `target`**: `a XOR target` as a number. -/
def distance (target a : ID) : Nat := beValue (List.zipWith (· ^^^ ·) a.toList target.toList)

theorem beValue_lt : ∀ xs : List UInt8, beValue xs < 256 ^ xs.length
  | [] => by simp [beValue]
  | x :: xs => by
    have hx : x.toNat < 256 := x.toNat_lt
    have ih := beValue_lt xs
    calc beValue (x :: xs) = x.toNat * 256 ^ xs.length + beValue xs := rfl
      _ < x.toNat * 256 ^ xs.length + 256 ^ xs.length := by omega
      _ = (x.toNat + 1) * 256 ^ xs.length := by ring
      _ ≤ 256 * 256 ^ xs.length := Nat.mul_le_mul_right _ hx
      _ = 256 ^ (x :: xs).length := by rw [List.length_cons, pow_succ, mul_comm]

/-- Big-endian numbers of one length compare by their first differing byte. -/
theorem beValue_cons_lt {x y : UInt8} {xs ys : List UInt8} (hlen : xs.length = ys.length)
    (hxy : x < y) : beValue (x :: xs) < beValue (y :: ys) := by
  have hx : x.toNat + 1 ≤ y.toNat := UInt8.lt_iff_toNat_lt.mp hxy
  have hv := beValue_lt xs
  calc beValue (x :: xs) = x.toNat * 256 ^ xs.length + beValue xs := rfl
    _ < (x.toNat + 1) * 256 ^ xs.length := by rw [Nat.succ_mul]; omega
    _ ≤ y.toNat * 256 ^ ys.length := by rw [hlen]; exact Nat.mul_le_mul_right _ hx
    _ ≤ beValue (y :: ys) := Nat.le_add_right _ _

/-- The comparison `DistCmp` computes, on numbers. -/
def cmpSign (x y : Nat) : Int := if y < x then 1 else if x < y then -1 else 0

theorem cmpSign_add_left (c x y : Nat) : cmpSign (c + x) (c + y) = cmpSign x y := by
  simp [cmpSign]

theorem distCmpLoop_eq : ∀ (ts as bs : List UInt8), as.length = ts.length →
    bs.length = ts.length →
    distCmpLoop ts as bs =
      cmpSign (beValue (List.zipWith (· ^^^ ·) as ts)) (beValue (List.zipWith (· ^^^ ·) bs ts))
  | [], [], [], _, _ => rfl
  | t :: ts, a :: as, b :: bs, ha, hb => by
    have ha' : as.length = ts.length := by simpa using ha
    have hb' : bs.length = ts.length := by simpa using hb
    have hla :
        (List.zipWith (· ^^^ ·) as ts).length = (List.zipWith (· ^^^ ·) bs ts).length := by
      simp [ha', hb']
    simp only [List.zipWith_cons_cons]
    unfold distCmpLoop
    by_cases hgt : a ^^^ t > b ^^^ t
    · -- the first byte decides, downwards
      rw [if_pos hgt, cmpSign, if_pos (beValue_cons_lt hla.symm hgt)]
    · rw [if_neg hgt]
      by_cases hlt : a ^^^ t < b ^^^ t
      · -- the first byte decides, upwards
        have h := beValue_cons_lt hla hlt
        rw [if_pos hlt, cmpSign, if_neg (Nat.lt_asymm h), if_pos h]
      · -- the first bytes agree, the rest decides
        rw [if_neg hlt]
        have h₁ : ¬ (b ^^^ t).toNat < (a ^^^ t).toNat :=
          fun h => hgt (UInt8.lt_iff_toNat_lt.mpr h)
        have h₂ : ¬ (a ^^^ t).toNat < (b ^^^ t).toNat :=
          fun h => hlt (UInt8.lt_iff_toNat_lt.mpr h)
        have heq : a ^^^ t = b ^^^ t := UInt8.toNat_inj.mp (by omega)
        rw [distCmpLoop_eq ts as bs ha' hb']
        simp only [beValue, heq, hla, cmpSign_add_left]
  | [], _ :: _, _, ha, _ => by simp at ha
  | [], [], _ :: _, _, hb => by simp at hb
  | _ :: _, [], _, ha, _ => by simp at ha
  | _ :: _, _ :: _, [], _, hb => by simp at hb

/-- **`DistCmp` compares the XOR distances to the target.** -/
theorem distCmp_eq (target a b : ID) :
    distCmp target a b = cmpSign (distance target a) (distance target b) :=
  distCmpLoop_eq _ _ _ (by simp) (by simp)

theorem distCmp_pos_iff (target a b : ID) :
    0 < distCmp target a b ↔ distance target b < distance target a := by
  rw [distCmp_eq, cmpSign]
  split_ifs with h₁ h₂ <;> simp_all

end GoMetadium.P2p
