/-
**Replicas that exchange operations.**

A `World` is a group of replicas that were all copied, directly or not, from the one that created
the group. It remembers the operations and the contents that were published, each with the replica
that published it as it was right after.

* `World.next` lets one replica execute one call of the public interface. Only published operations
  are delivered, in any order and any number of times; `mergeConcurrentOperation` itself refuses an
  operation whose predecessors it does not know.
* A call that returns an error leaves the replica as the error left it. A call that panics or never
  returns is no step.
* `Reachable` — the worlds reached by calls that all meet a given condition, which is stated on the
  world and the replica before the call.
-/

import KeyhiveEval.Beekem.Cgka

namespace KeyhiveEval.Beekem

open Std

/-- A content that was encrypted, with its secret and the replica that encrypted it. -/
structure Sent (Cr : Type) where
  secret : ApplicationSecret Cr
  encrypted : EncryptedContent Cr
  sender : Cgka

/-- The replicas, and everything published. -/
structure World (Cr : Type) where
  replicas : List Cgka
  published : List (SignedOp × Cgka)
  sent : List (Sent Cr)

/-- What a replica is asked to do. Operations and replicas are named by their positions in the
world. -/
inductive Call (Cr : Type)
  | add (id : MemberId) (pk : ShareKey) (signer : Signer)
  | remove (id : MemberId) (signer : Signer)
  | update (newPk : ShareKey) (newSk : ShareSecretKey) (signer : Signer) (csprng : Rng)
  | mergeConcurrentOperation (op : Nat)
  | newAppSecretFor (contentRef : Cr) (content : List UInt8) (predRefs : List Cr) (signer : Signer)
      (csprng : Rng)
  /-- A key for any content, also one that nobody has encrypted. -/
  | decryptionKeyFor (encrypted : EncryptedContent Cr)
  | merge (fork : Nat)
  /-- Copy the replica for another owner, or fork it for its own. -/
  | withNewOwner (id : MemberId) (ownerSks : ShareKeyMap)

structure Output (Cr : Type) where
  op : Option SignedOp := none
  secret : Option (ApplicationSecret Cr × EncryptedContent Cr) := none
  replica : Option Cgka := none

namespace World

variable (S : Suite) {Cr : Type} [ContentRef Cr]

def start (first : Cgka) : World Cr := ⟨[first], [(first.initAddOp, first)], []⟩

/-- The computation that a call stands for, if what it names exists. A replica is merged with forks
of its own only. -/
def run (w : World Cr) (cgka : Cgka) : Call Cr → Option (CgkaM (Output Cr))
  | .add id pk signer => some do
    let op ← Cgka.add S id pk signer
    return { op }
  | .remove id signer => some do
    let op ← Cgka.remove S id signer
    return { op }
  | .update newPk newSk signer csprng => some do
    let (_, op) ← Cgka.update S newPk newSk signer csprng
    return { op := some op }
  | .mergeConcurrentOperation op =>
    w.published[op]?.map fun entry => do
      let _ ← Cgka.mergeConcurrentOperation S entry.1
      return {}
  | .newAppSecretFor contentRef content predRefs signer csprng => some do
    let (secret, op) ← Cgka.newAppSecretFor S contentRef content predRefs signer csprng
    return { op, secret := (secret.tryEncrypt S.toCrypto content).map fun sealed => (secret, sealed) }
  | .decryptionKeyFor encrypted => some do
    let _ ← Cgka.decryptionKeyFor S encrypted
    return {}
  | .merge fork =>
    (w.replicas[fork]?.filter fun other => other.ownerId = cgka.ownerId).map fun other => do
      Cgka.merge S other
      return {}
  | .withNewOwner id ownerSks => some do
    let cgka ← get
    return { replica := some (cgka.withNewOwner id ownerSks) }

/-- The world after a replica has returned from a call. -/
def record (w : World Cr) (replica : Nat) (cgka : Cgka) (output : Output Cr) : World Cr where
  replicas := w.replicas.set replica cgka ++ output.replica.toList
  published := w.published ++ output.op.toList.map fun op => (op, cgka)
  sent := w.sent ++ output.secret.toList.map fun sent => ⟨sent.1, sent.2, cgka⟩

/-- The world after a call, unless the call panics or never returns. -/
def next (w : World Cr) (replica : Nat) (call : Call Cr) : Option (World Cr) := do
  let cgka ← w.replicas[replica]?
  let computation ← w.run S cgka call
  match computation cgka with
  | .ok output cgka' => return w.record replica cgka' output
  | .error (.err _) cgka' => return w.record replica cgka' {}
  | .error _ _ => none

def Returns (w : World Cr) (cgka : Cgka) (call : Call Cr) : Prop :=
  ∃ computation output cgka', w.run S cgka call = some computation ∧
    computation cgka = .ok output cgka'

/-- **The worlds reached** from the first replica by calls that meet a condition. -/
inductive Reachable (first : Cgka) (admits : World Cr → Cgka → Call Cr → Prop) : World Cr → Prop
  | start : Reachable first admits (start first)
  | call {w w' : World Cr} {replica : Nat} {cgka : Cgka} {call : Call Cr}
      (before : Reachable first admits w) (found : w.replicas[replica]? = some cgka)
      (admitted : admits w cgka call) (after : w.next S replica call = some w') :
      Reachable first admits w'

end World

end KeyhiveEval.Beekem
