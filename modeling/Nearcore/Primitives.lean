import Mathlib.Data.List.Lex
import Mathlib.Tactic

/-!
# Primitive types shared by the models

`CryptoHash` is the 32-byte digest of `near-primitives-core`; its derived
`Ord` compares the bytes lexicographically, which is the order of every
`BTreeMap` keyed by a hash.  The hash function itself (SHA-256 from the
`sha2` crate) is not part of the repository; models that hash take it as a
parameter.  `PublicKey` and its Borsh encoding follow `near-crypto`.
-/

namespace Nearcore

/-- The order of `u8`, on its value; Rust compares byte strings by it, lexicographically, which
is the order Mathlib puts on `List UInt8`. -/
instance instLinearOrderUInt8 : LinearOrder UInt8 where
  le_refl a := @le_refl ℕ _ a.toNat
  le_trans _ _ _ := @le_trans ℕ _ _ _ _
  le_antisymm _ _ h₁ h₂ := UInt8.toNat_inj.mp (Nat.le_antisymm h₁ h₂)
  lt_iff_le_not_ge _ _ := @lt_iff_le_not_ge ℕ _ _ _
  le_total _ _ := @le_total ℕ _ _ _
  toDecidableLE := inferInstance
  toDecidableEq := inferInstance
  toDecidableLT := inferInstance

structure CryptoHash where
  bytes : Vector UInt8 32
  deriving DecidableEq, Repr

namespace CryptoHash

/-- `CryptoHash::default()`, all zero bytes. -/
def default : CryptoHash := ⟨Vector.replicate 32 0⟩

instance : Inhabited CryptoHash := ⟨default⟩

/-- The Borsh encoding of a hash: its 32 bytes. -/
def toBorsh (h : CryptoHash) : List UInt8 := h.bytes.toList

theorem bytes_injective : Function.Injective (fun h : CryptoHash => h.bytes.toList.map UInt8.toNat) := by
  intro a b h
  cases a
  cases b
  simp only [CryptoHash.mk.injEq]
  apply Vector.toList_inj.mp
  apply List.map_injective_iff.mpr (fun x y hxy => UInt8.toNat_inj.mp hxy)
  exact h

instance : LinearOrder CryptoHash := LinearOrder.lift' _ bytes_injective

end CryptoHash

abbrev AccountId := String

abbrev Nonce := UInt64

abbrev Gas := UInt64

inductive PublicKey where
  | ed25519 (data : Vector UInt8 32)
  | secp256k1 (data : Vector UInt8 64)
  deriving DecidableEq, Repr

/-- The Borsh encoding of a public key: the key type, then the raw bytes. -/
def PublicKey.toBorsh : PublicKey → List UInt8
  | .ed25519 data => 0 :: data.toList
  | .secp256k1 data => 1 :: data.toList

/-- The fields of `Transaction` that the pool, the chunk producer and the
chunk validator read; the receiver, the block hash and the actions are left
out. -/
structure Transaction where
  signerId : AccountId
  publicKey : PublicKey
  nonce : Nonce
  deriving DecidableEq, Repr

/-- `SignedTransaction` with the hash and the Borsh size that
`SignedTransaction::init` caches; the signature is left out. -/
structure SignedTransaction where
  transaction : Transaction
  hash : CryptoHash
  size : UInt64
  deriving DecidableEq, Repr

namespace SignedTransaction

def getHash (self : SignedTransaction) : CryptoHash := self.hash

def getSize (self : SignedTransaction) : UInt64 := self.size

/-- The pair `(signer_id, public_key)` that access keys, pool groups and the
transaction order are keyed by. -/
def accountKey (self : SignedTransaction) : AccountId × PublicKey :=
  (self.transaction.signerId, self.transaction.publicKey)

end SignedTransaction

end Nearcore
