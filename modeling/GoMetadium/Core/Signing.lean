import GoMetadium.Lib.Rlp
import GoMetadium.Lib.GoInt
import GoMetadium.Lib.Machine
import GoMetadium.Core.StateTransition

set_option autoImplicit false

/-! # Signing transactions and recovering their senders (`core/types/transaction_signing.go`)

A transaction is signed over a hash of its body. `FrontierSigner` and `HomesteadSigner` hash
the six fields of the body; `EIP155Signer` also hashes its chain id and two zeros. The
signature `[R || S || V]` that `crypto.Sign` returns is stored in the transaction as the big
integers `R`, `S` and `V`. `V` is the recovery id plus 27, and for an EIP-155 signer with a
nonzero chain id `c` the recovery id plus `35 + 2c` (`SignatureValues`). `Sender` takes this
apart again: a transaction is protected when `V` is neither 27 nor 28 (`isProtectedV`), its
chain id is read back from `V` (`deriveChainId`), and `recoverPlain` checks the values,
rebuilds the 65 signature bytes and recovers the public key, whose Keccak-256 hash gives the
address.

The cryptography is a parameter (`Crypto`): Keccak-256, `crypto.Sign`, `crypto.Ecrecover` and
the public key of a private key. What the proofs assume of them is `Crypto.Sound`.

The top-level `Sender(signer, tx)` caches the address it derives in the transaction, with the
signer it used, and returns the cached address to any signer the cached one calls equal. A
transaction object is a machine here (`txMachine`): its data never changes, its cache does.
Two calls write an address no signer derived into the cache: `SetSender`, and `TxExs2Txs`,
which stores the sender a partner peer claims for a transaction of a `TxExMsg`; `Sender` then
returns the claim (`sender_returns_claimed_from`). Of a transaction only what signing reads is
kept; the hash and size caches are left out.
-/

namespace GoMetadium.Core

open GoMetadium.Go Rlp

/-! ## Big integers and bytes (`math/big`) -/

/-- `(*big.Int).BitLen()`: the length of the absolute value in bits. -/
def bitLen (x : Int) : Nat := Nat.size x.natAbs

/-- `(*big.Int).Bytes()`: the absolute value in big-endian bytes, without leading zeros. -/
def bigBytes (x : Int) : List UInt8 := if x.natAbs = 0 then [] else putint x.natAbs

/-- `copy(buf[32-len(b):32], b)` into a zeroed 32-byte buffer: `b` at its right end. -/
def fill32 (b : List UInt8) : List UInt8 := List.replicate (32 - b.length) 0 ++ b

theorem bitLen_le_iff (x : Int) (n : Nat) : bitLen x ≤ n ↔ x.natAbs < 2 ^ n := Nat.size_le

/-- Reading 32 bytes as a number and writing the number back into 32 bytes gives the bytes:
the leading zeros that `Bytes` drops are the zeros `copy` leaves in the buffer. -/
theorem fill32_bigBytes {b : List UInt8} (hb : b.length = 32) :
    fill32 (bigBytes (bigEndian b)) = b := by
  have hsplit := List.takeWhile_append_dropWhile (p := fun x => decide (x = 0)) (l := b)
  have hzeros : b.takeWhile (fun x => decide (x = 0)) =
      List.replicate (b.takeWhile (fun x => decide (x = 0))).length 0 :=
    List.eq_replicate_iff.mpr ⟨rfl, fun x hx => by simpa using List.mem_takeWhile_imp hx⟩
  have hhead : ∀ x d, b.dropWhile (fun x => decide (x = 0)) = x :: d → x ≠ 0 := by
    intro x d hd
    have := List.head_dropWhile_not (fun x => decide (x = 0)) (l := b) (by simp [hd])
    simpa [hd] using this
  -- `b` is its leading zeros `z` and the rest `d`
  generalize b.takeWhile (fun x => decide (x = 0)) = z at hsplit hzeros
  generalize b.dropWhile (fun x => decide (x = 0)) = d at hsplit hhead
  subst hsplit
  have hlen : z.length + d.length = 32 := by rw [← hb, List.length_append]
  rw [hzeros, bigEndian_replicate_zero_append]
  cases d with
  | nil =>
    have hnil : bigBytes (bigEndian []) = [] := rfl
    rw [hnil, fill32, List.length_nil, List.append_nil, List.append_nil]
    simp only [List.length_nil, Nat.add_zero] at hlen
    rw [hlen]
  | cons x d =>
    have hx := hhead x d rfl
    have hpos := bigEndian_cons_pos hx d
    have hbytes : bigBytes (bigEndian (x :: d)) = x :: d := by
      simp only [bigBytes, Int.natAbs_natCast]
      rw [if_neg (by omega), putint_bigEndian_cons hx]
    rw [hbytes, fill32]
    congr 2
    omega

/-! ## Signature values (`crypto/crypto.go`) -/

/-- secp256k1's group order. -/
def secp256k1N : Int := 0xfffffffffffffffffffffffffffffffebaaedce6af48a03bbfd25e8cd0364141

/-- Half the group order, the bound on `s` from Homestead on. -/
def secp256k1halfN : Int := secp256k1N / 2

/-- `crypto.ValidateSignatureValues(v, r, s, homestead)`. -/
def validateSignatureValues (v : UInt8) (r s : Int) (homestead : Bool) : Bool :=
  if r < 1 ∨ s < 1 then false
  -- reject upper range of s values (ECDSA malleability)
  else if homestead ∧ s > secp256k1halfN then false
  else decide (r < secp256k1N ∧ s < secp256k1N ∧ (v = 0 ∨ v = 1))

/-- The recovery id of a valid signature is 0 or 1. -/
theorem recid_le_one_of_validate {v : UInt8} {r s : Int} {homestead : Bool}
    (h : validateSignatureValues v r s homestead = true) : v.toNat ≤ 1 := by
  unfold validateSignatureValues at h
  split_ifs at h
  simp only [decide_eq_true_eq] at h
  rcases h.2.2 with rfl | rfl <;> decide

/-! ## The cryptography -/

/-- The cryptography signing uses, over private keys `κ`. -/
structure Crypto (κ : Type) where
  /-- `crypto.Keccak256`. -/
  keccak256 : List UInt8 → List UInt8
  /-- `crypto.Sign(hash, prv)`: the signature `[R || S || V]`. -/
  sign : List UInt8 → κ → Except String (List UInt8)
  /-- `crypto.Ecrecover(hash, sig)`: the public key. -/
  ecrecover : List UInt8 → List UInt8 → Except String (List UInt8)
  /-- `crypto.FromECDSAPub(&prv.PublicKey)`: the public key, uncompressed. -/
  fromECDSAPub : κ → List UInt8

/-- The values of a 65-byte signature, `R`, `S` and the recovery id, are valid. -/
def ValidSig (sig : List UInt8) : Prop :=
  validateSignatureValues (sig.getD 64 0) (bigEndian (sig.take 32))
    (bigEndian ((sig.drop 32).take 32)) true = true

instance (sig : List UInt8) : Decidable (ValidSig sig) := inferInstanceAs (Decidable (_ = true))

/-- What is assumed of the cryptography: Keccak-256 gives 32 bytes; `Sign` returns 65 bytes
with valid values, from which `Ecrecover` recovers the public key; an uncompressed public key
starts with the byte 4. -/
structure Crypto.Sound {κ : Type} (C : Crypto κ) : Prop where
  length_keccak256 : ∀ b, (C.keccak256 b).length = 32
  sign_ok : ∀ h k, ∃ sig, C.sign h k = .ok sig ∧ sig.length = 65 ∧ ValidSig sig ∧
    C.ecrecover h sig = .ok (C.fromECDSAPub k)
  fromECDSAPub_head : ∀ k, (C.fromECDSAPub k).head? = some 4

/-- `common.BytesToAddress(b)`: the last 20 bytes of `b`, zero-padded on the left. -/
def bytesToAddress (b : List UInt8) : List UInt8 :=
  let b := b.drop (b.length - 20)
  List.replicate (20 - b.length) 0 ++ b

/-- `copy(addr[:], b)` into a zeroed address: the first 20 bytes of `b`, zero-padded on the
right. -/
def copyAddress (b : List UInt8) : List UInt8 := b.take 20 ++ List.replicate (20 - b.length) 0

/-- `crypto.PubkeyToAddress(prv.PublicKey)`: the last 20 bytes of the hash of the public key
without its first byte. -/
def pubkeyToAddress {κ : Type} (C : Crypto κ) (k : κ) : List UInt8 :=
  bytesToAddress ((C.keccak256 (C.fromECDSAPub k).tail).drop 12)

theorem copyAddress_eq_bytesToAddress {b : List UInt8} (hb : b.length = 20) :
    copyAddress b = bytesToAddress b := by
  simp [copyAddress, bytesToAddress, hb]

/-! ## Transactions -/

/-- `txdata`: the body of a transaction and its signature values. -/
structure TxData where
  accountNonce : Nat
  price : Int
  gasLimit : Nat
  recipient : Option (List UInt8)
  amount : Int
  payload : List UInt8
  v : Int
  r : Int
  s : Int
  deriving DecidableEq, Repr

/-- The signers. `EIP155Signer` holds its chain id; its `chainIdMul` is twice the chain id, as
`NewEIP155Signer`, the only way to build one, sets it. -/
inductive Signer where
  | eip155 (chainId : Int)
  | homestead
  | frontier
  deriving DecidableEq, Repr

/-- The errors of signing and sender recovery. -/
inductive SignerError where
  /-- `ErrInvalidChainId`: `"invalid chain id for signer"`. -/
  | invalidChainId
  /-- `ErrInvalidSig`: `"invalid transaction v, r, s values"`. -/
  | invalidSig
  /-- `"invalid public key"`. -/
  | invalidPublicKey
  /-- An error of `crypto.Sign` or `crypto.Ecrecover`. -/
  | crypto (e : String)
  /-- The panic `"wrong size for signature: got %d, want %d"`. -/
  | signatureLength (got : Nat)
  deriving DecidableEq, Repr

/-- `sigCache`: the signer a sender was derived with, and the sender. -/
structure SigCache where
  signer : Signer
  fromAddr : List UInt8
  deriving DecidableEq, Repr

/-- `Transaction`: the data and the sender cache `from`. -/
structure Transaction where
  data : TxData
  fromCache : Option SigCache
  deriving DecidableEq, Repr

/-- `isProtectedV(V)`: anything not 27 or 28 is considered protected. -/
def isProtectedV (V : Int) : Bool :=
  if bitLen V ≤ 8 then
    let v := bigUint64 V
    v ≠ 27 ∧ v ≠ 28
  else true

/-- `deriveChainId(v)`. -/
def deriveChainId (v : Int) : Int :=
  if bitLen v ≤ 64 then
    let v := bigUint64 v
    if v = 27 ∨ v = 28 then 0
    else ((subU64 v 35 / 2 : Nat) : Int)
  else (v - 35) / 2

/-- `tx.ChainId()`. -/
def Transaction.chainId (tx : Transaction) : Int := deriveChainId tx.data.v

/-- `tx.Protected()`. -/
def Transaction.isProtected (tx : Transaction) : Bool := isProtectedV tx.data.v

/-! ## Hashes -/

/-- The RLP item of a `uint64` or a `uint`. -/
def uintItem (n : Nat) : Item := .str (bigBytes n)

/-- The RLP item of a `*big.Int`; a negative one cannot be encoded. -/
def bigIntItem (x : Int) : Except Unit Item := if x < 0 then .error () else .ok (.str (bigBytes x))

/-- The RLP item of a `*common.Address`: a nil pointer is the empty string. -/
def addressItem : Option (List UInt8) → Item
  | none => .str []
  | some a => .str a

/-- `rlpHash(x)` of a list: the Keccak-256 hash of its encoding. A value that cannot be
encoded writes nothing, and its hash is the hash of no bytes. -/
def rlpHash (keccak256 : List UInt8 → List UInt8) (x : Except Unit (List Item)) : List UInt8 :=
  match x with
  | .ok items => keccak256 (Item.list items).encode
  | .error _ => keccak256 []

/-- The six fields of the body, as `FrontierSigner.Hash` encodes them. -/
def bodyItems (tx : TxData) : Except Unit (List Item) := do
  let price ← bigIntItem tx.price
  let amount ← bigIntItem tx.amount
  return [uintItem tx.accountNonce, price, uintItem tx.gasLimit, addressItem tx.recipient, amount,
    .str tx.payload]

/-- `FrontierSigner.Hash(tx)`, which `HomesteadSigner` inherits. -/
def frontierHash {κ : Type} (C : Crypto κ) (tx : TxData) : List UInt8 :=
  rlpHash C.keccak256 (bodyItems tx)

/-- `EIP155Signer.Hash(tx)`. -/
def eip155Hash {κ : Type} (C : Crypto κ) (chainId : Int) (tx : TxData) : List UInt8 :=
  rlpHash C.keccak256 do
    let items ← bodyItems tx
    let c ← bigIntItem chainId
    return items ++ [c, uintItem 0, uintItem 0]

/-- `s.Hash(tx)`. -/
def Signer.hash {κ : Type} (C : Crypto κ) : Signer → TxData → List UInt8
  | .eip155 chainId => eip155Hash C chainId
  | .homestead => frontierHash C
  | .frontier => frontierHash C

/-! ## Signers -/

section Signers

variable {κ : Type} (C : Crypto κ)

/-- `s.Equal(s2)`: an EIP-155 signer equals one of the same chain id, the others one of
their own type. -/
def Signer.equal : Signer → Signer → Bool
  | .eip155 c, .eip155 c' => c' == c
  | .homestead, .homestead => true
  | .frontier, .frontier => true
  | _, _ => false

/-- `recoverPlain(sighash, R, S, Vb, homestead)`. -/
def recoverPlain (sighash : List UInt8) (R S Vb : Int) (homestead : Bool) :
    Except SignerError (List UInt8) :=
  if bitLen Vb > 8 then .error .invalidSig
  else
    let V : UInt8 := UInt8.ofNat (subU64 (bigUint64 Vb) 27)
    if !validateSignatureValues V R S homestead then .error .invalidSig
    else
      -- the signature in uncompressed format; `R` and `S` are below `N`, so at most 32 bytes
      let sig := fill32 (bigBytes R) ++ fill32 (bigBytes S) ++ [V]
      match C.ecrecover sighash sig with
      | .error e => .error (.crypto e)
      | .ok pub =>
        if pub.length = 0 ∨ pub.head? ≠ some 4 then .error .invalidPublicKey
        else .ok (copyAddress ((C.keccak256 pub.tail).drop 12))

/-- `HomesteadSigner.Sender(tx)`. -/
def homesteadSender (tx : TxData) : Except SignerError (List UInt8) :=
  recoverPlain C (frontierHash C tx) tx.r tx.s tx.v true

/-- `FrontierSigner.Sender(tx)`. -/
def frontierSender (tx : TxData) : Except SignerError (List UInt8) :=
  recoverPlain C (frontierHash C tx) tx.r tx.s tx.v false

/-- `EIP155Signer.Sender(tx)`. -/
def eip155Sender (chainId : Int) (tx : TxData) : Except SignerError (List UInt8) :=
  if !isProtectedV tx.v then homesteadSender C tx
  else if deriveChainId tx.v ≠ chainId then .error .invalidChainId
  else recoverPlain C (eip155Hash C chainId tx) tx.r tx.s (tx.v - 2 * chainId - 8) true

/-- `s.Sender(tx)`. -/
def Signer.sender : Signer → TxData → Except SignerError (List UInt8)
  | .eip155 chainId => eip155Sender C chainId
  | .homestead => homesteadSender C
  | .frontier => frontierSender C

/-- `FrontierSigner.SignatureValues(tx, sig)`, which `HomesteadSigner` uses too. -/
def frontierSignatureValues (sig : List UInt8) : Except SignerError (Int × Int × Int) :=
  if sig.length ≠ 65 then .error (.signatureLength sig.length)
  else .ok (bigEndian (sig.take 32), bigEndian ((sig.drop 32).take 32), (sig.getD 64 0 + 27).toNat)

/-- `EIP155Signer.SignatureValues(tx, sig)`. -/
def eip155SignatureValues (chainId : Int) (sig : List UInt8) :
    Except SignerError (Int × Int × Int) := do
  let (R, S, V) ← frontierSignatureValues sig
  if chainId ≠ 0 then return (R, S, ((sig.getD 64 0 + 35).toNat : Int) + 2 * chainId)
  return (R, S, V)

/-- `s.SignatureValues(tx, sig)`. -/
def Signer.signatureValues : Signer → List UInt8 → Except SignerError (Int × Int × Int)
  | .eip155 chainId => eip155SignatureValues chainId
  | .homestead => frontierSignatureValues
  | .frontier => frontierSignatureValues

/-- `tx.WithSignature(signer, sig)`: a new transaction, with the signature values and no
cached sender. -/
def Transaction.withSignature (tx : Transaction) (signer : Signer) (sig : List UInt8) :
    Except SignerError Transaction := do
  let (r, s, v) ← signer.signatureValues sig
  return ⟨{ tx.data with r := r, s := s, v := v }, none⟩

/-- `SignTx(tx, s, prv)`. -/
def signTx (tx : Transaction) (s : Signer) (prv : κ) : Except SignerError Transaction := do
  let h := s.hash C tx.data
  let sig ← (C.sign h prv).mapError .crypto
  tx.withSignature s sig

/-- `Sender(signer, tx)`: the cached sender when the cached signer equals `signer`, and
otherwise the sender `signer` derives, then cached. -/
def sender (signer : Signer) (tx : Transaction) : Except SignerError (List UInt8) × Transaction :=
  match tx.fromCache with
  | some sc =>
    if sc.signer.equal signer then (.ok sc.fromAddr, tx)
    else
      match signer.sender C tx.data with
      | .error e => (.error e, tx)
      | .ok addr => (.ok addr, { tx with fromCache := some ⟨signer, addr⟩ })
  | none =>
    match signer.sender C tx.data with
    | .error e => (.error e, tx)
    | .ok addr => (.ok addr, { tx with fromCache := some ⟨signer, addr⟩ })

end Signers

/-- `SetSender(signer, tx, from)`: the cache set, unless it holds a signer equal to
`signer`. -/
def setSender (signer : Signer) (tx : Transaction) (fromAddr : List UInt8) : Transaction :=
  match tx.fromCache with
  | some sc => if sc.signer.equal signer then tx else { tx with fromCache := some ⟨signer, fromAddr⟩ }
  | none => { tx with fromCache := some ⟨signer, fromAddr⟩ }

/-- `GetSender(signer, tx)`. -/
def getSender (signer : Signer) (tx : Transaction) : Option (List UInt8) :=
  match tx.fromCache with
  | some sc => if sc.signer.equal signer then some sc.fromAddr else none
  | none => none

/-! ## Transactions from peers (`TransactionEx`) -/

/-- `TransactionEx`: a transaction as a `TxExMsg` carries it, with the sender its peer claims
for it. -/
structure TransactionEx where
  tx : Transaction
  fromAddr : List UInt8

/-- `Txs2TxExs(txs)`: each transaction with its cached sender, or the zero address. -/
def txs2TxExs (txs : List Transaction) : List TransactionEx :=
  txs.map fun i => ⟨i, match i.fromCache with
    | some sc => sc.fromAddr
    | none => List.replicate 20 0⟩

/-- The body of the loop of `TxExs2Txs`: with `trustIt` the sender the peer claims is stored in
the transaction's cache with `signer`, whatever the cache held. -/
def TransactionEx.toTx (signer : Signer) (trustIt : Bool) (i : TransactionEx) : Transaction :=
  if trustIt then { i.tx with fromCache := some ⟨signer, i.fromAddr⟩ } else i.tx

/-- `TxExs2Txs(signer, txs, trustIt)`; the handler of `TxExMsg` passes `trustIt` for a partner
peer. -/
def txExs2Txs (signer : Signer) (txs : List TransactionEx) (trustIt : Bool) : List Transaction :=
  txs.map (TransactionEx.toTx signer trustIt)

/-! ## The transaction object -/

/-- The calls on a transaction that read or write its sender cache; `txExs2Txs` is the pass of
`TxExs2Txs` over this transaction, with the sender its peer claimed. -/
inductive TxCall where
  | sender (s : Signer)
  | getSender (s : Signer)
  | setSender (s : Signer) (fromAddr : List UInt8)
  | txExs2Txs (s : Signer) (fromAddr : List UInt8) (trustIt : Bool)

/-- `SetSender` is the call that writes an address no signer derived. -/
def TxCall.isSetSender : TxCall → Bool
  | .setSender _ _ => true
  | _ => false

/-- The calls that store an address no signer derived: `SetSender`, and `TxExs2Txs` when it
trusts the peer. -/
def TxCall.storesClaimed : TxCall → Bool
  | .setSender _ _ => true
  | .txExs2Txs _ _ trustIt => trustIt
  | _ => false

/-- The replies of the calls. -/
inductive TxReply where
  | sender (r : Except SignerError (List UInt8))
  | getSender (a : Option (List UInt8))
  | setSender
  | txExs2Txs

/-- A transaction object and the calls on its cache. -/
def txMachine {κ : Type} (C : Crypto κ) : Machine Transaction TxCall TxReply where
  step tx
    | .sender s => (.sender (sender C s tx).1, (sender C s tx).2)
    | .getSender s => (.getSender (getSender s tx), tx)
    | .setSender s a => (.setSender, setSender s tx a)
    | .txExs2Txs s a trustIt => (.txExs2Txs, TransactionEx.toTx s trustIt ⟨tx, a⟩)

/-! ## Reading `V` -/

theorem bigUint64_of_lt {x : Int} (h0 : 0 ≤ x) (h : x < 2 ^ 64) : (bigUint64 x : Int) = x := by
  unfold bigUint64
  rw [Nat.mod_eq_of_lt (by omega)]
  omega

/-- A `V` of 29 or more is protected. -/
theorem isProtectedV_of_ge {V : Int} (h : 29 ≤ V) : isProtectedV V = true := by
  unfold isProtectedV
  split_ifs with hlen
  · rw [bitLen_le_iff] at hlen
    have hv := bigUint64_of_lt (x := V) (by omega) (by omega)
    simp only [ne_eq, decide_eq_true_eq]
    omega
  · rfl

/-- The `V` of a Homestead signature, 27 or 28, is not protected. -/
theorem isProtectedV_of_homestead {V : Int} (h : V = 27 ∨ V = 28) : isProtectedV V = false := by
  rcases h with rfl | rfl <;> decide

/-- The chain id is read back from the `V` of an EIP-155 signature: `recid + 35 + 2c` holds
`c` whether or not it fits in 64 bits. -/
theorem deriveChainId_eip155 {c : Int} (hc : 0 ≤ c) {recid : Nat} (hr : recid ≤ 1) :
    deriveChainId (recid + 35 + 2 * c) = c := by
  unfold deriveChainId
  by_cases hlen : bitLen (recid + 35 + 2 * c) ≤ 64
  · rw [if_pos hlen]
    rw [bitLen_le_iff] at hlen
    have hu := bigUint64_of_lt (x := recid + 35 + 2 * c) (by omega) (by omega)
    have hu' : bigUint64 (recid + 35 + 2 * c) = recid + 35 + 2 * c.toNat := by omega
    simp only [hu']
    rw [if_neg (by omega), subU64_of_le (by unfold bigUint64 at hu'; omega) (by omega)]
    omega
  · rw [if_neg hlen]
    omega

/-- Below the bound of `recoverPlain`, `Vb - 27` is the byte the recovery id was. -/
theorem recid_byte {v : UInt8} (hv : v.toNat ≤ 1) :
    UInt8.ofNat (subU64 (bigUint64 ((v.toNat : Int) + 27)) 27) = v := by
  have hu := bigUint64_of_lt (x := (v.toNat : Int) + 27) (by omega) (by omega)
  have hu' : bigUint64 ((v.toNat : Int) + 27) = v.toNat + 27 := by omega
  rw [hu', subU64_of_le (by omega) (by omega), Nat.add_sub_cancel, UInt8.ofNat_toNat]

/-! ## Recovering a signature -/

/-- A 65-byte signature is its two 32-byte halves and its last byte. -/
theorem sig_split {sig : List UInt8} (hlen : sig.length = 65) :
    sig.take 32 ++ (sig.drop 32).take 32 ++ [sig.getD 64 0] = sig := by
  rw [← List.take_add]
  conv_rhs => rw [← List.take_append_drop 64 sig]
  congr 1
  apply List.ext_getElem
  · simp [hlen]
  · intro i h₁ h₂
    have hi : i = 0 := by simp [hlen] at h₂; omega
    subst hi
    simp [List.getD_eq_getElem?_getD, hlen]

section Recover

variable {κ : Type} (C : Crypto κ)

/-- `recoverPlain` on the values a valid 65-byte signature stores rebuilds that signature,
and gives the address of the public key `Ecrecover` recovers from it. -/
theorem recoverPlain_sig (hC : C.Sound) {sighash sig pub : List UInt8} (hlen : sig.length = 65)
    (hv : ValidSig sig) (hrec : C.ecrecover sighash sig = .ok pub) (hpub : pub.head? = some 4) :
    recoverPlain C sighash (bigEndian (sig.take 32)) (bigEndian ((sig.drop 32).take 32))
        ((sig.getD 64 0).toNat + 27) true =
      .ok (bytesToAddress ((C.keccak256 pub.tail).drop 12)) := by
  have hrecid : (sig.getD 64 0).toNat ≤ 1 := recid_le_one_of_validate hv
  have hbits : ¬ bitLen (((sig.getD 64 0).toNat : Int) + 27) > 8 := by
    rw [gt_iff_lt, not_lt, bitLen_le_iff]
    omega
  have hsig : fill32 (bigBytes (bigEndian (sig.take 32))) ++
      fill32 (bigBytes (bigEndian ((sig.drop 32).take 32))) ++ [sig.getD 64 0] = sig := by
    rw [fill32_bigBytes (by simp [hlen]), fill32_bigBytes (by simp [hlen]), sig_split hlen]
  have hpub' : ¬ (pub.length = 0 ∨ pub.head? ≠ some 4) := by
    rintro (h0 | h4)
    · simp [List.length_eq_zero_iff.mp h0] at hpub
    · exact h4 hpub
  have haddr : ((C.keccak256 pub.tail).drop 12).length = 20 := by
    simp [hC.length_keccak256]
  unfold ValidSig at hv
  simp only [recoverPlain, hbits, if_false, recid_byte hrecid, hv, Bool.not_true, hsig, hrec,
    hpub']
  rw [copyAddress_eq_bytesToAddress haddr]
  rfl

/-- Signing with an EIP-155 signer of a nonzero chain id: the transaction gets the values of
the signature `Sign` returns over `EIP155Signer.Hash`, with `V` the recovery id plus
`35 + 2c`, and no cached sender. -/
theorem signTx_eip155 (hC : C.Sound) {c : Int} (hc : c ≠ 0) (tx : Transaction) (k : κ) :
    ∃ sig, sig.length = 65 ∧ ValidSig sig ∧
      C.ecrecover (eip155Hash C c tx.data) sig = .ok (C.fromECDSAPub k) ∧
      signTx C tx (.eip155 c) k =
        .ok ⟨{ tx.data with
          r := bigEndian (sig.take 32)
          s := bigEndian ((sig.drop 32).take 32)
          v := ((sig.getD 64 0).toNat : Int) + 35 + 2 * c }, none⟩ := by
  obtain ⟨sig, hsign, hlen, hv, hrec⟩ := hC.sign_ok (eip155Hash C c tx.data) k
  refine ⟨sig, hlen, hv, hrec, ?_⟩
  have hrecid : (sig.getD 64 0).toNat ≤ 1 := recid_le_one_of_validate hv
  have hV : (sig.getD 64 0 + 35).toNat = (sig.getD 64 0).toNat + 35 := by
    rw [UInt8.toNat_add, show (35 : UInt8).toNat = 35 from rfl]
    exact Nat.mod_eq_of_lt (by omega)
  simp only [signTx, Signer.hash, hsign, Except.mapError, bind, Except.bind,
    Transaction.withSignature, Signer.signatureValues, eip155SignatureValues,
    frontierSignatureValues, hlen, ne_eq, not_true_eq_false, if_false, hc, not_false_eq_true,
    if_true, pure, Except.pure, hV, Nat.cast_add]
  rfl

/-- The signing hash is over the body: the signature values do not enter it. -/
theorem eip155Hash_signature (c : Int) (d : TxData) (r s v : Int) :
    eip155Hash C c { d with r := r, s := s, v := v } = eip155Hash C c d := rfl

/-- What an EIP-155 signer of chain id `c'` derives from a transaction signed for chain id
`c`: the address of the key when `c' = c`, and `ErrInvalidChainId` otherwise. -/
theorem eip155Sender_signed (hC : C.Sound) {c : Int} (hc : 1 ≤ c) (d : TxData) (k : κ)
    {sig : List UInt8} (hlen : sig.length = 65) (hv : ValidSig sig)
    (hrec : C.ecrecover (eip155Hash C c d) sig = .ok (C.fromECDSAPub k)) (c' : Int) :
    eip155Sender C c' { d with
        r := bigEndian (sig.take 32)
        s := bigEndian ((sig.drop 32).take 32)
        v := ((sig.getD 64 0).toNat : Int) + 35 + 2 * c } =
      if c' = c then .ok (pubkeyToAddress C k) else .error .invalidChainId := by
  have hrecid : (sig.getD 64 0).toNat ≤ 1 := recid_le_one_of_validate hv
  have hprot : isProtectedV (((sig.getD 64 0).toNat : Int) + 35 + 2 * c) = true :=
    isProtectedV_of_ge (by omega)
  have hchain := deriveChainId_eip155 (by omega : 0 ≤ c) hrecid
  have hV : ((sig.getD 64 0).toNat : Int) + 35 + 2 * c - 2 * c - 8 = (sig.getD 64 0).toNat + 27 := by
    omega
  unfold eip155Sender
  simp only [hprot, Bool.not_true, Bool.false_eq_true, if_false, hchain]
  by_cases hc' : c' = c
  · subst hc'
    simp only [ne_eq, not_true_eq_false, if_false, if_true, eip155Hash_signature, hV]
    exact recoverPlain_sig C hC hlen hv hrec (hC.fromECDSAPub_head k)
  · simp only [ne_eq, Ne.symm hc', not_false_eq_true, if_true, hc', if_false]

/-- A transaction that is not protected is recovered by an EIP-155 signer as by
`HomesteadSigner`. -/
theorem eip155Sender_of_homestead {d : TxData} (hv : d.v = 27 ∨ d.v = 28) (c : Int) :
    eip155Sender C c d = homesteadSender C d := by
  simp [eip155Sender, isProtectedV_of_homestead hv]

end Recover

/-! ## The sender cache -/

section Cache

variable {κ : Type} (C : Crypto κ)

theorem Signer.equal_iff (s s' : Signer) : s.equal s' = true ↔ s = s' := by
  cases s <;> cases s' <;> simp [Signer.equal]
  exact eq_comm

/-- Every sender in the cache is what its signer derives from the transaction's data. -/
def CacheSound (tx : Transaction) : Prop :=
  ∀ sc, tx.fromCache = some sc → sc.signer.sender C tx.data = .ok sc.fromAddr

/-- With no cached signer equal to `signer`, `Sender(signer, tx)` derives the sender afresh
and caches it when it is found. -/
theorem sender_of_not_cached {tx : Transaction} {signer : Signer}
    (h : ∀ sc, tx.fromCache = some sc → sc.signer.equal signer = false) :
    sender C signer tx =
      match signer.sender C tx.data with
      | .error e => (.error e, tx)
      | .ok addr => (.ok addr, { tx with fromCache := some ⟨signer, addr⟩ }) := by
  unfold sender
  cases hcache : tx.fromCache with
  | none => rfl
  | some sc =>
    dsimp only
    rw [if_neg (by simp [h sc hcache])]

/-- With a sound cache, `Sender(signer, tx)` returns what `signer` derives, leaves the data as
it is and keeps the cache sound: a cached address is returned only to a signer equal to the
one that derived it, and a new one is cached with the signer that derived it. -/
theorem sender_of_cacheSound {tx : Transaction} (h : CacheSound C tx) (signer : Signer) :
    (sender C signer tx).1 = signer.sender C tx.data ∧ (sender C signer tx).2.data = tx.data ∧
      CacheSound C (sender C signer tx).2 := by
  by_cases hcached : ∃ sc, tx.fromCache = some sc ∧ sc.signer.equal signer = true
  case pos =>
    obtain ⟨sc, hcache, heq⟩ := hcached
    have hsig : sc.signer = signer := (Signer.equal_iff _ _).mp heq
    have hcall : sender C signer tx = (.ok sc.fromAddr, tx) := by
      unfold sender
      rw [hcache]
      exact if_pos heq
    rw [hcall]
    exact ⟨(hsig ▸ h sc hcache).symm, rfl, h⟩
  case neg =>
    have hfresh : ∀ sc, tx.fromCache = some sc → sc.signer.equal signer = false := by
      intro sc hsc
      simpa using fun heq => hcached ⟨sc, hsc, heq⟩
    rw [sender_of_not_cached C hfresh]
    cases hs : signer.sender C tx.data with
    | error e => exact ⟨rfl, rfl, h⟩
    | ok addr =>
      refine ⟨rfl, rfl, ?_⟩
      intro sc hsc
      simp only [Option.some.injEq] at hsc
      subst hsc
      exact hs

/-- One call that stores no claimed sender leaves the data as it is and keeps the cache
sound. -/
theorem txMachine_step_cacheSound {tx : Transaction} (h : CacheSound C tx) (call : TxCall)
    (hcall : call.storesClaimed = false) :
    ((txMachine C).step tx call).2.data = tx.data ∧ CacheSound C ((txMachine C).step tx call).2 := by
  cases call with
  | sender s => exact (sender_of_cacheSound C h s).2
  | getSender s => exact ⟨rfl, h⟩
  | setSender s a => simp [TxCall.storesClaimed] at hcall
  | txExs2Txs s a trustIt =>
    -- an untrusted peer's claim is dropped
    have htrust : trustIt = false := hcall
    subst htrust
    exact ⟨rfl, h⟩

/-- Every run that stores no claimed sender, from a sound cache, keeps the data and a sound
cache. -/
theorem txMachine_run_cacheSound (tx₀ : Transaction) (h₀ : CacheSound C tx₀) (calls : List TxCall)
    (hcalls : ∀ call ∈ calls, call.storesClaimed = false) :
    ((txMachine C).run tx₀ calls).2.data = tx₀.data ∧
      CacheSound C ((txMachine C).run tx₀ calls).2 := by
  -- the invariant along the history of calls made so far
  have step : ∀ tx hist i,
      ((∀ call ∈ hist, call.storesClaimed = false) → tx.data = tx₀.data ∧ CacheSound C tx) →
      ((∀ call ∈ hist ++ [i], call.storesClaimed = false) →
        ((txMachine C).step tx i).2.data = tx₀.data ∧ CacheSound C ((txMachine C).step tx i).2) := by
    intro tx hist i hinv hall
    obtain ⟨hd, hs⟩ := hinv fun call hc => hall call (List.mem_append_left _ hc)
    obtain ⟨hd', hs'⟩ := txMachine_step_cacheSound C hs i (hall i (by simp))
    exact ⟨hd'.trans hd, hs'⟩
  have := (txMachine C).run_history step tx₀ [] calls (fun _ => ⟨rfl, h₀⟩)
  simpa using this hcalls

theorem cacheSound_of_none {tx : Transaction} (h : tx.fromCache = none) : CacheSound C tx := by
  intro sc hsc
  rw [h] at hsc
  cases hsc

/-- Along a run that stores no claimed sender, from a sound cache, every reply of
`Sender(s, tx)`, from the cache or not, is what `s` derives from the transaction. -/
theorem txMachine_sender_reply (tx₀ : Transaction) (h₀ : CacheSound C tx₀) (calls : List TxCall)
    (hcalls : ∀ call ∈ calls, call.storesClaimed = false) (j : Nat) (s : Signer)
    (hj : calls[j]? = some (.sender s)) :
    ((txMachine C).run tx₀ calls).1[j]? = some (.sender (s.sender C tx₀.data)) := by
  rw [Machine.run_reply_getElem?, hj, Option.map_some]
  -- the state after the first `j` calls
  obtain ⟨hd, hs⟩ := txMachine_run_cacheSound C tx₀ h₀ (calls.take j)
    fun call hc => hcalls call (List.mem_of_mem_take hc)
  have hreply := (sender_of_cacheSound C hs s).1
  show some (TxReply.sender (sender C s ((txMachine C).run tx₀ (calls.take j)).2).1) = _
  rw [hreply, hd]

end Cache

/-! ## EIP-155 signing and sender recovery -/

/-- EIP-155 signing and sender recovery are inverse and replay-protected. A transaction signed
for chain id `c ≥ 1` is protected, carries `c`, and its sender is the address of the key,
while a signer of any other chain id refuses it. A transaction with a Homestead `V` is
recovered by an EIP-155 signer as by `HomesteadSigner`. Along any calls on a transaction with
no cached sender, none of them `SetSender` or a trusting `TxExs2Txs`, every `Sender(s, tx)`
returns what `s` derives. -/
theorem eip155_signTx_recover {κ : Type} (C : Crypto κ) (hC : C.Sound) (c : Int) (hc : 1 ≤ c)
    (tx : Transaction) (k : κ) :
    (∃ tx', signTx C tx (.eip155 c) k = .ok tx' ∧ tx'.isProtected = true ∧ tx'.chainId = c ∧
        (sender C (.eip155 c) tx').1 = .ok (pubkeyToAddress C k) ∧
        ∀ c', c' ≠ c → (Signer.eip155 c').sender C tx'.data = .error .invalidChainId) ∧
      (∀ tx : Transaction, (tx.data.v = 27 ∨ tx.data.v = 28) →
        (Signer.eip155 c).sender C tx.data = Signer.homestead.sender C tx.data) ∧
      (∀ (tx₀ : Transaction) (calls : List TxCall), tx₀.fromCache = none →
        (∀ call ∈ calls, call.storesClaimed = false) → ∀ (j : Nat) (s : Signer),
          calls[j]? = some (.sender s) →
          ((txMachine C).run tx₀ calls).1[j]? = some (.sender (s.sender C tx₀.data))) := by
  refine ⟨?_, fun tx hv => eip155Sender_of_homestead C hv c,
    fun tx₀ calls h₀ hcalls j s hj =>
      txMachine_sender_reply C tx₀ (cacheSound_of_none C h₀) calls hcalls j s hj⟩
  obtain ⟨sig, hlen, hv, hrec, hsign⟩ := signTx_eip155 C hC (by omega : c ≠ 0) tx k
  have hrecid := recid_le_one_of_validate hv
  refine ⟨_, hsign, isProtectedV_of_ge (V := ((sig.getD 64 0).toNat : Int) + 35 + 2 * c) (by omega),
    deriveChainId_eip155 (by omega) hrecid, ?_, ?_⟩
  case refine_1 =>
    -- the signed transaction has no cached sender
    have hown := eip155Sender_signed C hC hc tx.data k hlen hv hrec c
    rw [if_pos rfl] at hown
    rw [sender_of_not_cached C (fun sc hsc => by cases hsc)]
    simp only [Signer.sender, hown]
  case refine_2 =>
    intro c' hc'
    have hother := eip155Sender_signed C hC hc tx.data k hlen hv hrec c'
    rw [if_neg hc'] at hother
    exact hother

/-- A stand-in for the cryptography with one key, which has what `Crypto.Sound` asks for: its
signature has `r = s = 1` and recovery id 0. -/
def unitCrypto : Crypto Unit where
  keccak256 _ := List.replicate 32 0
  sign _ _ := .ok (List.replicate 31 0 ++ [1] ++ List.replicate 31 0 ++ [1] ++ [0])
  ecrecover _ _ := .ok [4]
  fromECDSAPub _ := [4]

theorem unitCrypto_sound : unitCrypto.Sound where
  length_keccak256 _ := by simp [unitCrypto]
  sign_ok _ _ := ⟨_, rfl, by decide, by decide, rfl⟩
  fromECDSAPub_head _ := rfl

/-- **A partner peer's claim is cached without `SetSender`.** A transfer signed for chain 1
with the stand-in key, whose `Sender` is the key's address, arrives in a `TxExMsg` from a
partner peer that claims the sender `0x0101…01`: `TxExs2Txs` stores the claim in the
transaction's cache, and the next `Sender`, with no `SetSender` called, returns the claim. -/
theorem sender_returns_claimed_from :
    ∃ tx, signTx unitCrypto ⟨⟨0, 1, 21000, none, 0, [], 0, 0, 0⟩, none⟩ (.eip155 1) () = .ok tx ∧
      (sender unitCrypto (.eip155 1) tx).1 = .ok (pubkeyToAddress unitCrypto ()) ∧
      (∀ call ∈ [TxCall.txExs2Txs (.eip155 1) (List.replicate 20 1) true, .sender (.eip155 1)],
        call.isSetSender = false) ∧
      ((txMachine unitCrypto).run tx
          [.txExs2Txs (.eip155 1) (List.replicate 20 1) true, .sender (.eip155 1)]).1 =
        [.txExs2Txs, .sender (.ok (List.replicate 20 1))] ∧
      pubkeyToAddress unitCrypto () ≠ List.replicate 20 1 := by
  obtain ⟨⟨tx, hsign, -, -, hsender, -⟩, -, -⟩ :=
    eip155_signTx_recover unitCrypto unitCrypto_sound 1 (le_refl _)
      ⟨⟨0, 1, 21000, none, 0, [], 0, 0, 0⟩, none⟩ ()
  refine ⟨tx, hsign, hsender, by decide, ?_, by decide⟩
  -- `TxExs2Txs` caches the claim with the signer, which `Sender` then finds equal to its own
  rfl

end GoMetadium.Core
