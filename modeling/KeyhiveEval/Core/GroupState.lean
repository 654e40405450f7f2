/-
**`state.rs`: the operations of a group and their heads.**

A group keeps the delegations and the revocations that nothing else refers to yet: from these the
members are computed. All operations are also put into stores that the groups of a keyhive share.

* `GroupState.addDelegation`, `GroupState.addRevocation` — the checks, in the source's order, and then
  the new heads.
* `HashOrder` — in which order the hash tables are walked. It is an argument wherever the source
  walks one and does not sort the result.
-/

import KeyhiveEval.Core.Delegation

namespace KeyhiveEval.Core

open Std Beekem

abbrev DelegationStore (T : Type) := ExtTreeMap MembershipDigest (SignedDelegation T)

abbrev RevocationStore (T : Type) := ExtTreeMap MembershipDigest (SignedRevocation T)

/-- **In which order hash tables are walked.** Each walk visits every entry once. -/
structure HashOrder (T : Type) where
  delegations : List (MembershipDigest × SignedDelegation T) →
    List (MembershipDigest × SignedDelegation T)
  revocations : List (MembershipDigest × SignedRevocation T) →
    List (MembershipDigest × SignedRevocation T)
  signatures : List Signature → List Signature
  delegations_perm : ∀ list, (delegations list).Perm list
  revocations_perm : ∀ list, (revocations list).Perm list
  signatures_perm : ∀ list, (signatures list).Perm list

namespace HashOrder

variable {T : Type}

def sorted : HashOrder T := ⟨id, id, id, List.Perm.refl, List.Perm.refl, List.Perm.refl⟩

def reversed : HashOrder T :=
  ⟨List.reverse, List.reverse, List.reverse, List.reverse_perm, List.reverse_perm, List.reverse_perm⟩

end HashOrder

inductive AddError
  | invalidSubject (id : Identifier)
  | escelation (claimed proof : Access)
  | invalidProofChain
deriving DecidableEq

structure Stores (T : Type) where
  delegations : DelegationStore T
  revocations : RevocationStore T

structure GroupState (T : Type) where
  id : Identifier
  delegationHeads : DelegationStore T
  revocationHeads : RevocationStore T

section

variable {T : Type} (hash : MembershipOperation T → MembershipDigest)

def insertDelegation (store : DelegationStore T) (dlg : SignedDelegation T) : DelegationStore T :=
  store.insert (hash (.delegation dlg)) dlg

def insertRevocation (store : RevocationStore T) (rev : SignedRevocation T) : RevocationStore T :=
  store.insert (hash (.revocation rev)) rev

end

namespace Stores

variable {T : Type} (hash : MembershipOperation T → MembershipDigest)

/-- Store a delegation of a lineage with the revocations that it follows. -/
def addLineage (stores : Stores T) (dlg : SignedDelegation T) : Stores T :=
  { delegations := insertDelegation hash stores.delegations dlg
    revocations := dlg.payload.afterRevocations.foldl (insertRevocation hash) stores.revocations }

/-- The loop that stores the delegations below a head. The fuel is the weight of what is left. -/
def storeHeads : Nat → List (SignedDelegation T) → Stores T → Stores T
  | 0, _, stores => stores
  | _, [], stores => stores
  | fuel + 1, head :: heads, stores =>
    if stores.delegations.contains (hash (.delegation head)) then storeHeads fuel heads stores
    else
      let lineage := head.proofLineage
      let proofs := lineage.flatMap fun dlg =>
        dlg.payload.afterRevocations.filterMap fun rev => rev.payload.proof
      storeHeads fuel (proofs.reverse ++ heads)
        (lineage.foldl (addLineage hash)
          { stores with delegations := insertDelegation hash stores.delegations head })

end Stores

namespace GroupState

variable {T : Type} (hash : MembershipOperation T → MembershipDigest)

/-- `delegation_head` alone is a head; the operations it refers to are stored. -/
def new (delegationHead : SignedDelegation T) (stores : Stores T) : GroupState T × Stores T :=
  ({ id := delegationHead.issuer
     delegationHeads := insertDelegation hash ∅ delegationHead
     revocationHeads := ∅ },
    stores.storeHeads hash (delegationHead.weight + 1) [delegationHead])

/-- The state of a group that is generated with some delegations by its own key
(`Group::generate_after_content`). -/
def generated (id : Identifier) (dlgs : List (SignedDelegation T)) : GroupState T :=
  { id
    delegationHeads := dlgs.foldl (insertDelegation hash) ∅
    revocationHeads := ∅ }

/-! ### Delegations -/

/-- The checks along the proofs of a delegation: none gives less, and each is made out to the issuer
of the delegation before it. -/
def checkDelegationLineage (can : Access) : SignedDelegation T → List (SignedDelegation T) →
    Except AddError Unit
  | _, [] => return ()
  | head, proof :: rest =>
    if proof.payload.can < can then throw (.escelation can proof.payload.can)
    else if head.issuer ≠ proof.payload.delegate.id then throw .invalidProofChain
    else checkDelegationLineage can proof rest

def checkDelegation (state : GroupState T) (dlg : SignedDelegation T) : Except AddError Unit := do
  if dlg.subjectId ≠ state.id then throw (.invalidSubject dlg.subjectId)
  if dlg.payload.proof.isNone && dlg.issuer ≠ state.id then throw .invalidProofChain
  checkDelegationLineage dlg.payload.can dlg dlg.proofLineage

section Heads

variable [DecidableEq T]

/-- What one head does to the heads when a delegation comes in. -/
def headStep (dlg : SignedDelegation T) (heads : DelegationStore T)
    (entry : MembershipDigest × SignedDelegation T) : DelegationStore T :=
  let heads := if dlg.isAncestorOf entry.2 then heads else insertDelegation hash heads dlg
  if entry.2.isAncestorOf dlg then heads.erase entry.1 else heads

def delegationHeadsAfter (order : HashOrder T) (heads : DelegationStore T) (dlg : SignedDelegation T) :
    DelegationStore T :=
  (order.delegations heads.toList).foldl (headStep hash dlg) heads

/-- The revocation heads after a delegation: those that it follows are no heads any more. -/
def revocationHeadsAfter (order : HashOrder T) (heads : RevocationStore T) (dlg : SignedDelegation T) :
    RevocationStore T :=
  (order.revocations heads.toList).foldl (fun heads entry =>
    if dlg.payload.afterRevocations.any fun rev => rev.same entry.2 then heads.erase entry.1
    else heads) heads

def addDelegation (order : HashOrder T) (state : GroupState T) (stores : Stores T)
    (dlg : SignedDelegation T) : Except AddError (MembershipDigest × GroupState T × Stores T) := do
  state.checkDelegation dlg
  return (hash (.delegation dlg),
    { state with
      delegationHeads := delegationHeadsAfter hash order state.delegationHeads dlg
      revocationHeads := revocationHeadsAfter order state.revocationHeads dlg },
    { stores with delegations := insertDelegation hash stores.delegations dlg })

end Heads

/-! ### Revocations -/

/-- The checks along the proofs of the proof of a revocation. The fold of the source hands on `proof`
itself, so every proof above it has to be made out to the issuer of `proof`. -/
def checkRevocationLineage (proof : SignedDelegation T) : List (SignedDelegation T) →
    Except AddError Unit
  | [] => return ()
  | nextProof :: rest =>
    if nextProof.payload.can < proof.payload.can then
      throw (.escelation proof.payload.can nextProof.payload.can)
    else if proof.issuer ≠ nextProof.payload.delegate.id then throw .invalidProofChain
    else checkRevocationLineage proof rest

def checkRevocation (state : GroupState T) (rev : SignedRevocation T) : Except AddError Unit := do
  if rev.subjectId ≠ state.id then throw (.invalidSubject rev.subjectId)
  match rev.payload.proof with
  | some proof =>
    if !rev.payload.revoke.same proof && !rev.payload.revoke.isDescendantOf proof then
      throw .invalidProofChain
    checkRevocationLineage proof proof.proofLineage
  | none => if rev.issuer ≠ state.id then throw .invalidProofChain

def addRevocation (state : GroupState T) (stores : Stores T) (rev : SignedRevocation T) :
    Except AddError (MembershipDigest × GroupState T × Stores T) := do
  state.checkRevocation rev
  return (hash (.revocation rev),
    { state with revocationHeads := insertRevocation hash state.revocationHeads rev },
    { stores with revocations := insertRevocation hash stores.revocations rev })

def add [DecidableEq T] (order : HashOrder T) (state : GroupState T) (stores : Stores T) :
    MembershipOperation T → Except AddError (MembershipDigest × GroupState T × Stores T)
  | .delegation dlg => state.addDelegation hash order stores dlg
  | .revocation rev => state.addRevocation hash stores rev

def check (state : GroupState T) : MembershipOperation T → Except AddError Unit
  | .delegation dlg => state.checkDelegation dlg
  | .revocation rev => state.checkRevocation rev

/-- The state after an operation that passes its checks. -/
def after [DecidableEq T] (order : HashOrder T) (state : GroupState T) :
    MembershipOperation T → GroupState T
  | .delegation dlg =>
    { state with
      delegationHeads := delegationHeadsAfter hash order state.delegationHeads dlg
      revocationHeads := revocationHeadsAfter order state.revocationHeads dlg }
  | .revocation rev =>
    { state with revocationHeads := insertRevocation hash state.revocationHeads rev }

variable {state : GroupState T} {op : MembershipOperation T}

theorem add_ok [DecidableEq T] {order : HashOrder T} {state' : GroupState T}
    {stores stores' : Stores T} {digest : MembershipDigest}
    (added : state.add hash order stores op = .ok (digest, state', stores')) :
    state.check op = .ok () ∧ state' = state.after hash order op := by
  cases op with
  | delegation dlg =>
    rw [add, addDelegation] at added
    rw [check]
    cases checked : state.checkDelegation dlg with
    | error e => simp [checked, bind, Except.bind] at added
    | ok _ =>
      simp only [checked, bind, Except.bind, pure, Except.pure, Except.ok.injEq, Prod.mk.injEq] at added
      exact ⟨rfl, added.2.1.symm⟩
  | revocation rev =>
    rw [add, addRevocation] at added
    rw [check]
    cases checked : state.checkRevocation rev with
    | error e => simp [checked, bind, Except.bind] at added
    | ok _ =>
      simp only [checked, bind, Except.bind, pure, Except.pure, Except.ok.injEq, Prod.mk.injEq] at added
      exact ⟨rfl, added.2.1.symm⟩

theorem subjectId_of_check
    (checked : state.check op = .ok ()) : op.subjectId = state.id := by
  by_contra other
  cases op with
  | delegation dlg =>
    rw [MembershipOperation.subjectId] at other
    simp [check, checkDelegation, other, bind, Except.bind, throw, throwThe, MonadExceptOf.throw] at checked
  | revocation rev =>
    rw [MembershipOperation.subjectId] at other
    simp [check, checkRevocation, other, bind, Except.bind, throw, throwThe, MonadExceptOf.throw] at checked

theorem add_of_check [DecidableEq T] (order : HashOrder T) (stores : Stores T) (checked : state.check op = .ok ()) :
    ∃ stores', state.add hash order stores op = .ok (hash op, state.after hash order op, stores') := by
  cases op with
  | delegation dlg =>
    rw [check] at checked
    exact ⟨_, by rw [add, addDelegation, checked]; rfl⟩
  | revocation rev =>
    rw [check] at checked
    exact ⟨_, by rw [add, addRevocation, checked]; rfl⟩

@[simp]
theorem after_id [DecidableEq T] (order : HashOrder T) (state : GroupState T)
    (op : MembershipOperation T) : (state.after hash order op).id = state.id := by
  cases op <;> rfl

end GroupState

end KeyhiveEval.Core
