/-
**A suite that can be computed with.**

The keys of `Sample.suite` are single bytes: the Diffie-Hellman key of two bytes is their
exclusive-or, the ratchet adds one, a ciphertext carries the byte of its key, and the digest of a
signed operation is its signature. It is no cipher, but it meets the laws that the protocol relies on
(`Sample.lawful`), so the statements that assume them are about something, and a run of the
protocol can be evaluated.

* `Sample.run` lets the replicas of a group execute calls, starting with its creation.
* `Sample.reached` — a world that such a run ends in is reachable.
-/

import KeyhiveEval.Beekem.Invariant

namespace KeyhiveEval.Beekem

open Std Stateful

namespace Sample

def byteOf (bytes : Vector UInt8 32) : UInt8 := bytes.get 0

def crypto : Crypto where
  x25519PublicKey secret := ⟨BitVec.ofNat 256 (byteOf secret).toNat⟩
  x25519 secret other := Vector.replicate 32 (byteOf secret ^^^ UInt8.ofNat other.raw.toNat)
  blake3DeriveKey _ bytes := Vector.replicate 32 (bytes.headD 0 + 1)
  blake3Xof _ := Vector.replicate 24 0
  xchachaEncrypt key _ _ plaintext := some (byteOf key :: plaintext)
  xchachaDecrypt key _ _ ciphertext :=
    if ciphertext.head? = some (byteOf key) then some ciphertext.tail else none

theorem lawful : crypto.Lawful where
  exchange first second := by
    have back : ∀ byte : UInt8, UInt8.ofNat (BitVec.ofNat 256 byte.toNat).toNat = byte := by
      intro byte
      have := byte.toNat_lt
      rw [BitVec.toNat_ofNat, Nat.mod_eq_of_lt (by omega), UInt8.ofNat_toNat]
    show Vector.replicate 32 (byteOf first ^^^ UInt8.ofNat (BitVec.ofNat 256 _).toNat)
      = Vector.replicate 32 (byteOf second ^^^ UInt8.ofNat (BitVec.ofNat 256 _).toNat)
    rw [back, back, UInt8.xor_comm]
  decrypt key nonce aad plaintext ciphertext encrypts := by
    obtain rfl := Option.some.inj encrypts
    exact if_pos rfl
  encrypt _ _ _ _ := rfl

def suite : Suite where
  toCrypto := crypto
  hashOp op := ⟨op.signature.setWidth 256⟩
  hashPcsKey key := ⟨BitVec.ofNat 256 (byteOf key.secret.bytes).toNat⟩
  hashShareSecretKey key := ⟨BitVec.ofNat 256 (byteOf key.bytes).toNat⟩

instance : ContentRef Unit := ⟨fun _ => ⟨0⟩, fun _ => ⟨0⟩⟩

def secret (n : Nat) : ShareSecretKey := ⟨Vector.replicate 32 (UInt8.ofNat n)⟩

def key (n : Nat) : ShareKey := (secret n).shareKey crypto

def member (n : Nat) : MemberId := ⟨BitVec.ofNat 256 n⟩

/-- The signer of one operation: its signature, and so the digest, is `n`. -/
def signer (n : Nat) : Signer := ⟨⟨0⟩, fun _ => some (BitVec.ofNat 512 n)⟩

def rng (n : Nat) : Rng := fun i => secret (n + i)

def secrets (ns : List Nat) : ShareKeyMap :=
  ns.foldl (fun sks n => sks.insert (key n) (secret n)) ∅

/-- The group that member 1 creates with the key 16. -/
def create : Res Cgka := Cgka.new suite ⟨0⟩ (member 1) (key 16) (signer 1)

/-- The world after some calls, if each of them meets a condition. -/
def runWhere (meets : World Unit → Cgka → Call Unit → Bool) (w : World Unit) :
    List (Nat × Call Unit) → Option (World Unit)
  | [] => some w
  | (replica, call) :: rest => do
    let cgka ← w.replicas[replica]?
    guard (meets w cgka call)
    let w ← w.next suite replica call
    runWhere meets w rest

/-- The first replica and the world after some calls that meet a condition. -/
def run (meets : World Unit → Cgka → Call Unit → Bool) (calls : List (Nat × Call Unit)) :
    Option (Cgka × World Unit) :=
  match create with
  | .ok first => (runWhere meets (.start first) calls).map fun w => (first, w)
  | .error _ => none

variable {meets : World Unit → Cgka → Call Unit → Bool}
  {admits : World Unit → Cgka → Call Unit → Prop}

theorem reachable_runWhere (sound : ∀ w cgka call, meets w cgka call = true → admits w cgka call)
    {first : Cgka} {calls : List (Nat × Call Unit)} {w w' : World Unit}
    (before : World.Reachable suite first admits w) (runs : runWhere meets w calls = some w') :
    World.Reachable suite first admits w' := by
  induction calls generalizing w with
  | nil => exact Option.some.inj runs ▸ before
  | cons step rest ih =>
    obtain ⟨replica, call⟩ := step
    obtain ⟨cgka, found, runs⟩ := Option.bind_eq_some_iff.mp runs
    obtain ⟨_, passed, runs⟩ := Option.bind_eq_some_iff.mp runs
    obtain ⟨mid, next, runs⟩ := Option.bind_eq_some_iff.mp runs
    have admitted : meets w cgka call = true := by
      by_contra fails
      rw [guard, if_neg fails] at passed
      simp at passed
    exact ih (.call before found (sound _ _ _ admitted) next) runs

/-- **A run of the sample ends in a reachable world.** -/
theorem reached (calls : List (Nat × Call Unit)) (check : World Unit → Bool)
    (sound : ∀ w cgka call, meets w cgka call = true → admits w cgka call)
    (passes : (run meets calls).map (fun result => check result.2) = some true) :
    ∃ first w, create = .ok first ∧ World.Reachable suite first admits w ∧ check w = true := by
  obtain ⟨⟨first, w⟩, runs, checked⟩ := Option.map_eq_some_iff.mp passes
  unfold run at runs
  split at runs
  · rename_i first' created
    obtain ⟨w', ends, same⟩ := Option.map_eq_some_iff.mp runs
    obtain ⟨rfl, rfl⟩ := Prod.mk.inj same
    exact ⟨_, _, created, reachable_runWhere sound .start ends, checked⟩
  · simp at runs

/-- **A run of the sample without a condition.** -/
theorem reachedFreely (calls : List (Nat × Call Unit)) (check : World Unit → Bool)
    (passes : (run (fun _ _ _ => true) calls).map (fun result => check result.2) = some true) :
    ∃ first w, create = .ok first ∧ World.Reachable suite first (fun _ _ _ => True) w ∧
      check w = true :=
  reached calls check (fun _ _ _ _ => trivial) passes

end Sample

end KeyhiveEval.Beekem
