/-
**A group that can be computed with.**

The digest of an operation is its signature. Principals and signatures are numbers, and the group's own
key is the principal 0.

* `Sample.run` — a group that starts with one delegation by its own key and receives operations one after
  another, with the members and the revocations in effect as numbers (`Sample.summary`).
-/

import KeyhiveEval.Core.Group

namespace KeyhiveEval.Core

open Std Beekem

namespace Sample

def principal (n : Nat) : Identifier := ⟨BitVec.ofNat 256 n⟩

def signature (n : Nat) : Signature := BitVec.ofNat 512 n

def hash (op : MembershipOperation Unit) : MembershipDigest := ⟨op.signature.setWidth 256⟩

/-- A delegation by its own number, the numbers of the issuer and of the delegate, and what they can. -/
def delegation (number issuer delegate : Nat) (can : Access) (proof : Option (SignedDelegation Unit)) :
    SignedDelegation Unit :=
  ⟨⟨⟨.individual, principal delegate⟩, can, proof, [], ∅⟩, principal issuer, signature number⟩

/-- A revocation by its own number and the number of the issuer. -/
def revocation (number issuer : Nat) (revoke : SignedDelegation Unit)
    (proof : Option (SignedDelegation Unit)) : SignedRevocation Unit :=
  ⟨⟨revoke, proof, ∅⟩, principal issuer, signature number⟩

def receive (order : HashOrder Unit) (group : Group Unit × Stores Unit) :
    MembershipOperation Unit → Except AddError (Group Unit × Stores Unit)
  | .delegation dlg => do
    let (_, group) ← group.1.receiveDelegation hash order group.2 dlg
    return group
  | .revocation rev => do
    let (_, group) ← group.1.receiveRevocation hash order group.2 rev
    return group

def run (order : HashOrder Unit) (head : SignedDelegation Unit) (ops : List (MembershipOperation Unit)) :
    Except AddError (Group Unit) := do
  let (group, _) ← ops.foldlM (receive order) (Group.new hash order head ⟨∅, ∅⟩)
  return group

/-- The members with the numbers of the delegations to them, and the revocations in effect. -/
def summary (group : Group Unit) : List (Nat × List Nat) × List Nat :=
  (group.members.toList.map fun entry =>
      (entry.1.raw.toNat, entry.2.toList.map fun dlg => dlg.signature.toNat),
    group.activeRevocations.toList.map fun entry => entry.1.toNat)

/-- The group's own key lets 1 administer the group. -/
def admin : SignedDelegation Unit := delegation 10 0 1 .admin none

def editor : SignedDelegation Unit := delegation 11 1 2 .edit (some admin)

def subeditor : SignedDelegation Unit := delegation 12 2 3 .edit (some editor)

def assistant : SignedDelegation Unit := delegation 13 3 4 .edit (some subeditor)

def coeditor : SignedDelegation Unit := delegation 14 1 5 .edit (some admin)

end Sample

end KeyhiveEval.Core
