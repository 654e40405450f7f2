/-
**The BeeKEM crate: byte strings, faults and the cryptographic primitives.**

Everything the crate takes from outside the repository is a field of `Crypto`: the X25519 public
key and shared secret, the BLAKE3 key derivation and output stream, and XChaCha20-Poly1305. What
the repository builds from these (`ShareSecretKey`, `SymmetricKey`, `Siv`) is defined here as it is
in `keyhive_crypto`.

* A call that does not return a value is a `Fault`: an error of the crate, a panic, or a loop that
  never ends. The arithmetic is that of a release build: `u32` operations wrap and the
  `debug_assert!`s are compiled out.
* `Crypto.Lawful` collects what the protocol relies on: the two sides of a Diffie-Hellman exchange
  agree, and decryption undoes encryption.
-/

import Mathlib

namespace KeyhiveEval.Beekem

open Std

/-! ### Thirty-two bytes -/

/-- Thirty-two bytes, tagged with what they are the bytes of. The bytes are read as one big-endian
number, so that the order is the lexicographic order of the source's arrays. -/
structure Bytes32 (α : Type) where
  raw : BitVec 256

namespace Bytes32

variable {α : Type}

theorem raw_injective : Function.Injective (raw : Bytes32 α → BitVec 256) := by
  rintro ⟨first⟩ ⟨second⟩ same
  exact congrArg mk same

instance : DecidableEq (Bytes32 α) := fun _ _ => decidable_of_iff _ raw_injective.eq_iff

instance : Ord (Bytes32 α) := ⟨fun first second => compare first.raw second.raw⟩

theorem compare_def (first second : Bytes32 α) :
    compare first second = compare first.raw second.raw := rfl

instance : TransOrd (Bytes32 α) where
  eq_swap {a b} := by
    rw [compare_def, compare_def]
    exact OrientedCmp.eq_swap
  isLE_trans {a b c} := by
    rw [compare_def, compare_def, compare_def]
    exact TransCmp.isLE_trans

instance : LawfulEqOrd (Bytes32 α) where
  compare_self {a} := by
    rw [compare_def]
    exact ReflCmp.compare_self
  eq_of_compare {a b} equal := by
    rw [compare_def] at equal
    exact raw_injective (LawfulEqCmp.eq_of_compare equal)

end Bytes32

/-- A digest, tagged with the type of the value it is the hash of. -/
abbrev Digest (α : Type) := Bytes32 α

inductive MemberTag

inductive TreeTag

inductive ShareKeyTag

abbrev MemberId := Bytes32 MemberTag

abbrev TreeId := Bytes32 TreeTag

abbrev ShareKey := Bytes32 ShareKeyTag

/-! ### Faults -/

/-- The errors that the modelled functions return. -/
inductive CgkaError
  | conversion
  | decryption
  | encryption
  | encryptedSecretNotFound
  | identifierNotFound
  | noRootKey
  | operationNotFound
  | outOfOrderOperation
  | shareKeyNotFound
  | secretKeyNotFound
  | removeLastMember
  | unexpectedKeyConflict
  | unknownPcsKey
  | signingError
deriving DecidableEq, Repr

/-- How a call fails to return a value. -/
inductive Fault
  | err (error : CgkaError)
  | panic (message : String)
  | diverge
deriving DecidableEq, Repr

abbrev Res := Except Fault

/-! ### Secret keys and ciphers -/

structure ShareSecretKey where
  bytes : Vector UInt8 32
deriving DecidableEq, Repr

structure SymmetricKey where
  bytes : Vector UInt8 32
deriving DecidableEq, Repr

structure Siv where
  bytes : Vector UInt8 24
deriving DecidableEq, Repr

/-- The primitives of `x25519_dalek`, `blake3` and `chacha20poly1305`. -/
structure Crypto where
  x25519PublicKey : Vector UInt8 32 → ShareKey
  x25519 : Vector UInt8 32 → ShareKey → Vector UInt8 32
  blake3DeriveKey : String → List UInt8 → Vector UInt8 32
  blake3Xof : List UInt8 → Vector UInt8 24
  /-- The key, the nonce, the associated data and the plaintext. -/
  xchachaEncrypt : Vector UInt8 32 → Vector UInt8 24 → List UInt8 → List UInt8 → Option (List UInt8)
  xchachaDecrypt : Vector UInt8 32 → Vector UInt8 24 → List UInt8 → List UInt8 → Option (List UInt8)

def separatorStr : String := "/keyhive/"

def separator : List UInt8 := separatorStr.toUTF8.toList

def TreeId.asBytes (id : TreeId) : List UInt8 :=
  (List.range 32).map fun position => UInt8.ofNat (id.raw.toNat >>> (8 * (31 - position)))

namespace ShareSecretKey

variable (𝒞 : Crypto)

/-- Thirty-two bytes as a secret key, or nothing when there are not thirty-two. -/
def ofBytes (bytes : List UInt8) : Option ShareSecretKey :=
  if length : bytes.length = 32 then some ⟨⟨bytes.toArray, by simpa using length⟩⟩ else none

def toBytes (secret : ShareSecretKey) : List UInt8 := secret.bytes.toList

def shareKey (secret : ShareSecretKey) : ShareKey := 𝒞.x25519PublicKey secret.bytes

def deriveSymmetricKey (secret : ShareSecretKey) (other : ShareKey) : SymmetricKey :=
  ⟨𝒞.blake3DeriveKey separatorStr (𝒞.x25519 secret.bytes other).toList⟩

def ratchetForward (secret : ShareSecretKey) : ShareSecretKey :=
  ⟨𝒞.blake3DeriveKey separatorStr secret.toBytes⟩

def ratchetNForward (secret : ShareSecretKey) (n : Nat) : ShareSecretKey :=
  (ratchetForward 𝒞)^[n] secret

end ShareSecretKey

namespace SymmetricKey

variable (𝒞 : Crypto)

def tryEncrypt (key : SymmetricKey) (nonce : Siv) (data : List UInt8) : Option (List UInt8) :=
  𝒞.xchachaEncrypt key.bytes nonce.bytes separator data

def tryDecrypt (key : SymmetricKey) (nonce : Siv) (data : List UInt8) : Option (List UInt8) :=
  𝒞.xchachaDecrypt key.bytes nonce.bytes separator data

end SymmetricKey

/-- The nonce is the hash of the separator, the document, the key and the plaintext. -/
def Siv.new (𝒞 : Crypto) (key : SymmetricKey) (plaintext docId : List UInt8) : Siv :=
  ⟨𝒞.blake3Xof (separator ++ docId ++ key.bytes.toList ++ plaintext)⟩

/-- **What the protocol relies on.** -/
structure Crypto.Lawful (𝒞 : Crypto) : Prop where
  /-- The two sides of a Diffie-Hellman exchange agree. -/
  exchange : ∀ first second, 𝒞.x25519 first (𝒞.x25519PublicKey second)
    = 𝒞.x25519 second (𝒞.x25519PublicKey first)
  /-- Decryption undoes encryption. -/
  decrypt : ∀ key nonce aad plaintext ciphertext,
    𝒞.xchachaEncrypt key nonce aad plaintext = some ciphertext →
      𝒞.xchachaDecrypt key nonce aad ciphertext = some plaintext
  /-- Thirty-two bytes are never too long a plaintext. -/
  encrypt : ∀ key nonce aad (secret : ShareSecretKey),
    (𝒞.xchachaEncrypt key nonce aad secret.toBytes).isSome

end KeyhiveEval.Beekem
