/-
**`sender_ratchet.rs`: the chains of message keys of a sender.**

A ratchet holds the secret of a generation. Each step derives a key and a nonce for one message, and the secret of the
next generation. The ratchet of another member keeps the keys of some generations that were skipped.

* The key derivation is that of the crypto provider, which may fail. `Provider.Computes` says that a provider computes
  a given function whenever it does not.
* A method that fails keeps what it has changed, so the methods are computations with a state.
* `SenderRatchet.Evolves` — what calls can make of a ratchet.
-/

import KeyhiveEval.Lib.Stateful

namespace KeyhiveEval.Mls

open Stateful

structure CryptoError where
  code : Nat
deriving DecidableEq

/-- Why the secret tree does not give a secret. `diverge` is a loop of the source that never ends. -/
inductive SecretTreeError
  | tooDistantInThePast
  | tooDistantInTheFuture
  | indexOutOfBounds
  | secretReuseError
  | ratchetTypeError
  | ratchetTooLong
  | libraryError
  | cryptoError (error : CryptoError)
  | diverge
deriving DecidableEq

/-- The lengths of the secrets of a ciphersuite. -/
structure Ciphersuite where
  hashLength : Nat
  aeadKeyLength : Nat
  aeadNonceLength : Nat

/-- `kdf_expand_label` with a secret, a label, a context and a length. -/
abbrev Kdf (Secret : Type) := Secret → String → List UInt8 → Nat → Secret

/-- `kdf_expand_label` of a crypto provider. -/
abbrev Provider (Secret : Type) := Secret → String → List UInt8 → Nat → Except CryptoError Secret

variable {Secret : Type}

/-- A provider computes a function whenever it does not fail. -/
def Provider.Computes (provider : Provider Secret) (kdf : Kdf Secret) : Prop :=
  ∀ secret label context length result, provider secret label context length = .ok result →
    result = kdf secret label context length

/-- The provider that always computes a function. -/
def Provider.ofKdf (kdf : Kdf Secret) : Provider Secret := fun secret label context length =>
  .ok (kdf secret label context length)

/-- `u32::MAX`. -/
def u32Max : Nat := 2 ^ 32 - 1

/-- `to_be_bytes` of a `u32`. -/
def toBeBytes (n : Nat) : List UInt8 :=
  [UInt8.ofNat (n / 2 ^ 24), UInt8.ofNat (n / 2 ^ 16), UInt8.ofNat (n / 2 ^ 8), UInt8.ofNat n]

def expand {σ : Type} (provider : Provider Secret) (secret : Secret) (label : String) (context : List UInt8)
    (length : Nat) : EStateM SecretTreeError σ Secret :=
  match provider secret label context length with
  | .ok result => pure result
  | .error error => throw (.cryptoError error)

def deriveTreeSecret {σ : Type} (provider : Provider Secret) (secret : Secret) (label : String) (generation : Nat)
    (length : Nat) : EStateM SecretTreeError σ Secret :=
  expand provider secret label (toBeBytes generation) length

/-- The key and the nonce of a message. -/
abbrev RatchetKeyMaterial (Secret : Type) := Secret × Secret

/-! ### The head of a ratchet -/

structure RatchetSecret (Secret : Type) where
  secret : Secret
  generation : Nat
deriving DecidableEq

def RatchetSecret.initialRatchetSecret (secret : Secret) : RatchetSecret Secret := ⟨secret, 0⟩

def RatchetSecret.ratchetForward (suite : Ciphersuite) (provider : Provider Secret) :
    EStateM SecretTreeError (RatchetSecret Secret) (Nat × RatchetKeyMaterial Secret) := do
  let ratchet ← get
  if ratchet.generation = u32Max then throw .ratchetTooLong
  let nonce ← deriveTreeSecret provider ratchet.secret "nonce" ratchet.generation suite.aeadNonceLength
  let key ← deriveTreeSecret provider ratchet.secret "key" ratchet.generation suite.aeadKeyLength
  let secret ← deriveTreeSecret provider ratchet.secret "secret" ratchet.generation suite.hashLength
  set (RatchetSecret.mk secret (ratchet.generation + 1))
  return (ratchet.generation, (key, nonce))

/-! ### The ratchet of another member -/

structure SenderRatchetConfiguration where
  outOfOrderTolerance : Nat
  maximumForwardDistance : Nat

/-- The keys of past generations, the latest first, and the head. A key that was given out is `none`. -/
structure DecryptionRatchet (Secret : Type) where
  pastSecrets : List (Option (RatchetKeyMaterial Secret))
  ratchetHead : RatchetSecret Secret
deriving DecidableEq

namespace DecryptionRatchet

def new (secret : Secret) : DecryptionRatchet Secret := ⟨[], .initialRatchetSecret secret⟩

def generation (ratchet : DecryptionRatchet Secret) : Nat := ratchet.ratchetHead.generation

def forwardHead (suite : Ciphersuite) (provider : Provider Secret) :
    EStateM SecretTreeError (DecryptionRatchet Secret) (RatchetKeyMaterial Secret) := fun ratchet =>
  match RatchetSecret.ratchetForward suite provider ratchet.ratchetHead with
  | .ok (_, keyMaterial) head => .ok keyMaterial { ratchet with ratchetHead := head }
  | .error error head => .error error { ratchet with ratchetHead := head }

def pushFront (entry : Option (RatchetKeyMaterial Secret)) :
    EStateM SecretTreeError (DecryptionRatchet Secret) PUnit :=
  modify fun ratchet => { ratchet with pastSecrets := entry :: ratchet.pastSecrets }

def prunePastSecrets (configuration : SenderRatchetConfiguration) :
    EStateM SecretTreeError (DecryptionRatchet Secret) PUnit :=
  modify fun ratchet =>
    { ratchet with pastSecrets := ratchet.pastSecrets.take configuration.outOfOrderTolerance }

/-- Skip generations, and keep their keys. -/
def skip (suite : Ciphersuite) (provider : Provider Secret) :
    Nat → EStateM SecretTreeError (DecryptionRatchet Secret) PUnit
  | 0 => pure ⟨⟩
  | count + 1 => do
    let ratchetSecrets ← forwardHead suite provider
    pushFront (some ratchetSecrets)
    skip suite provider count

/-- Give out the key of a past generation. -/
def takePast (index : Nat) : EStateM SecretTreeError (DecryptionRatchet Secret) (RatchetKeyMaterial Secret) := do
  let ratchet ← get
  match ratchet.pastSecrets[index]? with
  | none => throw .indexOutOfBounds
  | some entry =>
    set { ratchet with pastSecrets := ratchet.pastSecrets.set index none }
    match entry with
    | none => throw .secretReuseError
    | some ratchetSecrets => return ratchetSecrets

/-- The distance of a past generation is cast to an `i32` before 1 is subtracted, with a wrap around. -/
def secretForDecryption (suite : Ciphersuite) (provider : Provider Secret) (generation : Nat)
    (configuration : SenderRatchetConfiguration) :
    EStateM SecretTreeError (DecryptionRatchet Secret) (RatchetKeyMaterial Secret) := do
  let ratchet ← get
  if ratchet.generation < u32Max - configuration.maximumForwardDistance ∧
      generation > ratchet.generation + configuration.maximumForwardDistance then
    throw .tooDistantInTheFuture
  if generation < ratchet.generation ∧ ratchet.generation - generation > configuration.outOfOrderTolerance then
    throw .tooDistantInThePast
  if generation ≥ ratchet.generation then
    skip suite provider (generation - ratchet.generation)
    let ratchetSecrets ← forwardHead suite provider
    pushFront none
    prunePastSecrets configuration
    return ratchetSecrets
  else if ratchet.generation - generation ≤ 2 ^ 31 then takePast (ratchet.generation - generation - 1)
  else throw .tooDistantInThePast

end DecryptionRatchet

/-! ### Ratchets -/

inductive SenderRatchet (Secret : Type)
  | encryptionRatchet (ratchet : RatchetSecret Secret)
  | decryptionRatchet (ratchet : DecryptionRatchet Secret)
deriving DecidableEq

namespace SenderRatchet

/-- What calls can make of a ratchet, with providers that compute a given function. -/
inductive Evolves (kdf : Kdf Secret) (suite : Ciphersuite) (first : SenderRatchet Secret) :
    SenderRatchet Secret → Prop
  | refl : Evolves kdf suite first first
  | encrypt {ratchet provider} (before : Evolves kdf suite first (.encryptionRatchet ratchet))
      (computes : Provider.Computes provider kdf) :
      Evolves kdf suite first (.encryptionRatchet (final (RatchetSecret.ratchetForward suite provider ratchet)))
  | decrypt {ratchet provider} (before : Evolves kdf suite first (.decryptionRatchet ratchet))
      (computes : Provider.Computes provider kdf) (generation : Nat) (configuration : SenderRatchetConfiguration) :
      Evolves kdf suite first (.decryptionRatchet
        (final (DecryptionRatchet.secretForDecryption suite provider generation configuration ratchet)))

end SenderRatchet

end KeyhiveEval.Mls
