import Mathlib

/-!
# IP classes and the distinct-net counter

The part of `p2p/netutil/net.go` the discovery table calls: `IsLAN` over the standard library's
`IP.To4`, `IP.Equal`, `IP.IsLoopback` and `IPNet.Contains`, and `DistinctNetSet`, a counter of
IPs per subnet with a limit, with `key`, `Add` and `Remove`.

A `DistinctNetSet` carries the fact that every present key has a positive count: `Add` writes
`n + 1` and `Remove` deletes a key at one. With it, `Remove` undoes `Add` exactly
(`remove_add`) and never wraps its `uint` count. `Add` fails exactly when the key's count
reached the limit (`add_eq_none_iff`), so it fails again on any set that counts at least as much
(`add_eq_none_of_le`): this is what the table's rollback paths rely on.
-/

set_option autoImplicit false

namespace GoMetadium.P2p

/-! ## Addresses -/

/-- A `net.IP`: its bytes, four for IPv4 and sixteen for IPv6 or IPv4 in IPv6 form. -/
abbrev IP := List UInt8

/-- The first twelve bytes of an IPv4 address in IPv6 form, `v4InV6Prefix`. -/
def v4InV6Prefix : List UInt8 := [0, 0, 0, 0, 0, 0, 0, 0, 0, 0, 0xff, 0xff]

/-- `IP.To4`: the four bytes of an IPv4 address in either form, or nil. -/
def to4 (ip : IP) : Option IP :=
  if ip.length = 4 then some ip
  else if ip.length = 16 ∧ ip.take 12 = v4InV6Prefix then some (ip.drop 12)
  else none

/-- `IP.Equal`: the same address, an IPv4 address comparing equal to its IPv6 form. -/
def ipEqual (ip x : IP) : Bool :=
  if ip.length = x.length then ip == x
  else if ip.length = 4 ∧ x.length = 16 then x.take 12 == v4InV6Prefix && ip == x.drop 12
  else if ip.length = 16 ∧ x.length = 4 then ip.take 12 == v4InV6Prefix && ip.drop 12 == x
  else false

/-- `IPv6loopback`, `::1`. -/
def ipv6Loopback : IP := List.replicate 15 0 ++ [1]

/-- `IP.IsLoopback`. -/
def isLoopback (ip : IP) : Bool :=
  match to4 ip with
  | some ip4 => ip4.head? == some 127
  | none => ipEqual ip ipv6Loopback

/-- An `IPNet` as `ParseCIDR` leaves it: the network number and the mask, of one length. -/
structure IPNet where
  ip : List UInt8
  mask : List UInt8

/-- `IPNet.Contains`, for a network whose number and mask have the same length (every network of
the LAN lists), where `networkNumberAndMask` returns them unchanged. -/
def IPNet.contains (n : IPNet) (ip : IP) : Bool :=
  let ip := (to4 ip).getD ip
  ip.length == n.ip.length &&
    ((n.ip.zip n.mask).zip ip).all fun p => p.1.1 &&& p.1.2 == p.2 &&& p.1.2

/-- `lan4`: `0.0.0.0/8`, `10.0.0.0/8`, `172.16.0.0/12` and `192.168.0.0/16`. -/
def lan4 : List IPNet :=
  [⟨[0, 0, 0, 0], [255, 0, 0, 0]⟩, ⟨[10, 0, 0, 0], [255, 0, 0, 0]⟩,
    ⟨[172, 16, 0, 0], [255, 240, 0, 0]⟩, ⟨[192, 168, 0, 0], [255, 255, 0, 0]⟩]

/-- `lan6`: `fe80::/10` and `fc00::/7`. -/
def lan6 : List IPNet :=
  [⟨[0xfe, 0x80] ++ List.replicate 14 0, [0xff, 0xc0] ++ List.replicate 14 0⟩,
    ⟨[0xfc] ++ List.replicate 15 0, [0xfe] ++ List.replicate 15 0⟩]

/-- `IsLAN`: a loopback address or one of a LAN range. -/
def isLAN (ip : IP) : Bool :=
  isLoopback ip ||
    match to4 ip with
    | some v4 => lan4.any (·.contains v4)
    | none => lan6.any (·.contains ip)

example : isLAN [192, 168, 1, 7] = true ∧ isLAN [8, 8, 8, 8] = false := by decide

/-! ## The counter -/

/-- A map that holds only positive counts. -/
def PosCounts (m : List UInt8 → Option Nat) : Prop := ∀ k n, m k = some n → 0 < n

theorem PosCounts.update {m : List UInt8 → Option Nat} (hm : PosCounts m) (key : List UInt8)
    {v : Option Nat} (hv : ∀ n, v = some n → 0 < n) : PosCounts (Function.update m key v) := by
  intro k n hk
  by_cases hkey : k = key
  · subst hkey
    exact hv n (by simpa using hk)
  · exact hm k n (by simpa [Function.update_of_ne hkey] using hk)

/-- `DistinctNetSet`: at most `limit` IPs of one `subnet`-bit network. -/
structure DistinctNetSet where
  subnet : Nat
  limit : Nat
  members : List UInt8 → Option Nat
  pos : PosCounts members

namespace DistinctNetSet

/-- The set with no members, as a `DistinctNetSet{Subnet, Limit}` literal starts. -/
def empty (subnet limit : Nat) : DistinctNetSet :=
  ⟨subnet, limit, fun _ => none, fun _ _ h => by cases h⟩

/-- `key`: the address type (`'4'` or `'6'`) and the address truncated to `subnet` bits. -/
def key (s : DistinctNetSet) (ip : IP) : List UInt8 :=
  -- the bytes '4' and '6'
  let typ : UInt8 := if (to4 ip).isSome then 52 else 54
  let ip := (to4 ip).getD ip
  let bits := min s.subnet (ip.length * 8)
  let nb := bits / 8
  let mask : UInt8 := ~~~((0xFF : UInt8) >>> (bits % 8).toUInt8)
  typ :: ip.take nb ++ (if nb < ip.length ∧ mask ≠ 0 then [ip.getD nb 0 &&& mask] else [])

/-- The count of a key, zero for an absent one (what `s.members[key]` reads). -/
def count (s : DistinctNetSet) (k : List UInt8) : Nat := (s.members k).getD 0

/-- `Add`: one more IP in its network, unless the network is at its limit. -/
def add (s : DistinctNetSet) (ip : IP) : Option DistinctNetSet :=
  if s.count (s.key ip) < s.limit then
    some { s with
      members := Function.update s.members (s.key ip) (some (s.count (s.key ip) + 1))
      pos := s.pos.update _ fun _ h => by cases h; omega }
  else none

/-- `Remove`: one IP fewer in its network, deleting the key at one. -/
def remove (s : DistinctNetSet) (ip : IP) : DistinctNetSet :=
  match h : s.members (s.key ip) with
  | some n =>
    if h1 : n = 1 then
      { s with members := Function.update s.members (s.key ip) none
               pos := s.pos.update _ fun _ h => by cases h }
    else
      { s with members := Function.update s.members (s.key ip) (some (n - 1))
               pos := s.pos.update _ fun _ h' => by
                 cases h'
                 have := s.pos _ n h
                 omega }
  | none => s

/-- `key` reads only the subnet. -/
theorem key_congr {s s' : DistinctNetSet} (h : s.subnet = s'.subnet) : s.key = s'.key := by
  funext ip
  simp only [key, h]

@[simp] theorem count_empty (subnet limit : Nat) (k : List UInt8) :
    (empty subnet limit).count k = 0 := rfl

/-- A present key is read with its count, an absent one as zero. -/
theorem members_eq_some_count {s : DistinctNetSet} {k : List UInt8} (hk : 0 < s.count k) :
    s.members k = some (s.count k) := by
  unfold count at hk ⊢
  cases h : s.members k with
  | none => simp [h] at hk
  | some n => rfl

theorem members_eq_none {s : DistinctNetSet} {k : List UInt8} (hk : s.count k = 0) :
    s.members k = none := by
  unfold count at hk
  cases h : s.members k with
  | none => rfl
  | some n =>
    have := s.pos k n h
    simp [h] at hk
    omega

theorem add_eq_none_iff (s : DistinctNetSet) (ip : IP) :
    s.add ip = none ↔ s.limit ≤ s.count (s.key ip) := by
  unfold add
  by_cases h : s.count (s.key ip) < s.limit
  · rw [if_pos h]
    simpa using h
  · rw [if_neg h]
    simpa using h

theorem add_fields {s s' : DistinctNetSet} {ip : IP} (h : s.add ip = some s') :
    s'.subnet = s.subnet ∧ s'.limit = s.limit := by
  unfold add at h
  split_ifs at h
  cases h
  exact ⟨rfl, rfl⟩

theorem count_add {s s' : DistinctNetSet} {ip : IP} (h : s.add ip = some s') (k : List UInt8) :
    s'.count k = if k = s.key ip then s.count k + 1 else s.count k := by
  unfold add at h
  split_ifs at h
  cases h
  by_cases hk : k = s.key ip
  · subst hk
    simp [count]
  · simp [count, hk]

@[simp] theorem remove_fields (s : DistinctNetSet) (ip : IP) :
    (s.remove ip).subnet = s.subnet ∧ (s.remove ip).limit = s.limit := by
  unfold remove
  split
  · split <;> exact ⟨rfl, rfl⟩
  · exact ⟨rfl, rfl⟩

/-- `Remove` takes one off its key's count, down to zero. -/
theorem count_remove (s : DistinctNetSet) (ip : IP) (k : List UInt8) :
    (s.remove ip).count k = if k = s.key ip then s.count k - 1 else s.count k := by
  unfold remove
  split
  next n h =>
    have hn : s.count (s.key ip) = n := by simp [count, h]
    split
    · by_cases hk : k = s.key ip
      · subst hk
        simp [count] at hn ⊢
        omega
      · simp [count, hk]
    · by_cases hk : k = s.key ip
      · subst hk
        simp [count] at hn ⊢
        omega
      · simp [count, hk]
  next h =>
    by_cases hk : k = s.key ip
    · subst hk
      simp [count, h]
    · simp [hk]

/-- Two sets with the same fields and counts are equal: the members map is its counts. -/
theorem ext_count {s s' : DistinctNetSet} (hsub : s.subnet = s'.subnet)
    (hlim : s.limit = s'.limit) (h : ∀ k, s.count k = s'.count k) : s = s' := by
  have hm : s.members = s'.members := by
    funext k
    by_cases hk : s.count k = 0
    · rw [members_eq_none hk, members_eq_none ((h k).symm.trans hk)]
    · rw [members_eq_some_count (Nat.pos_of_ne_zero hk),
        members_eq_some_count (Nat.pos_of_ne_zero ((h k) ▸ hk)), h k]
  cases s
  cases s'
  simp only at hsub hlim hm
  subst hsub hlim hm
  rfl

/-- **`Remove` undoes a successful `Add`.** -/
theorem remove_add {s s' : DistinctNetSet} {ip : IP} (h : s.add ip = some s') :
    s'.remove ip = s := by
  have hf := add_fields h
  have hkey : s'.key ip = s.key ip := by rw [key_congr hf.1]
  apply ext_count
  · rw [(remove_fields s' ip).1, hf.1]
  · rw [(remove_fields s' ip).2, hf.2]
  · intro k
    rw [count_remove, count_add h, hkey]
    split_ifs <;> omega

/-! ## Counting at least as much -/

/-- `s'` counts every network at least as often as `s`, under the same subnet and limit. -/
structure Le (s s' : DistinctNetSet) : Prop where
  subnet_eq : s'.subnet = s.subnet
  limit_eq : s'.limit = s.limit
  count_le : ∀ k, s.count k ≤ s'.count k

theorem Le.refl (s : DistinctNetSet) : Le s s := ⟨rfl, rfl, fun _ => le_rfl⟩

theorem Le.trans {s₁ s₂ s₃ : DistinctNetSet} (h₁ : Le s₁ s₂) (h₂ : Le s₂ s₃) :
    Le s₁ s₃ :=
  ⟨h₂.subnet_eq.trans h₁.subnet_eq, h₂.limit_eq.trans h₁.limit_eq,
    fun k => (h₁.count_le k).trans (h₂.count_le k)⟩

theorem le_add {s s' : DistinctNetSet} {ip : IP} (h : s.add ip = some s') : Le s s' := by
  refine ⟨(add_fields h).1, (add_fields h).2, fun k => ?_⟩
  rw [count_add h]
  split_ifs <;> omega

/-- **A full network stays full on a set that counts at least as much.** -/
theorem add_eq_none_of_le {s s' : DistinctNetSet} (hle : Le s s') {ip : IP}
    (h : s.add ip = none) : s'.add ip = none := by
  rw [add_eq_none_iff] at h ⊢
  rw [hle.limit_eq, key_congr hle.subnet_eq]
  exact h.trans (hle.count_le _)

end DistinctNetSet

end GoMetadium.P2p
