/-
**`group.rs`: revoking a member.**

`revoke_member` builds one revocation for each delegation to the member, or several, and receives each of them
before it builds the next. If the other members are to stay, it then delegates anew to those who were delegated to by
the member. Every operation that is received changes the group, whatever becomes of the call.

* `Call` — what a call changes: the group and the stores, and along with them how often the signer was asked and
  which operations were received.
* `revokeMember`, `addMemberWithManualContent` — the methods, with the group as it is when they fail.

The operations on the groups of a keyhive return the operations of the documents' key agreement beside; a group has
none of its own.
-/

import KeyhiveEval.Core.Exploring
import KeyhiveEval.Lib.Loops

namespace KeyhiveEval.Core

open Std Beekem Stateful OrderedSets

/-! ### Calls -/

/-- A signer, which may be asked again and again and may fail each time. -/
structure Signer (T : Type) where
  verifyingKey : Identifier
  signDelegation : Nat → Delegation T → Option Signature
  signRevocation : Nat → Revocation T → Option Signature

/-- In which order the hash tables are walked in the course of a call. -/
structure CallOrder (T : Type) where
  order : Nat → HashOrder T
  members : List (Identifier × NonEmpty (SignedDelegation T)) → List (Identifier × NonEmpty (SignedDelegation T))
  members_perm : ∀ list, (members list).Perm list

structure Call (T : Type) where
  group : Group T
  stores : Stores T
  /-- How often the signer was asked. -/
  asked : Nat
  /-- The operations that were received, for the record. -/
  received : List (MembershipOperation T)

inductive AddGroupMemberError
  | signingError
  | noProof
  | accessEscalation (wanted held : Access)
  | addError (e : AddError)
deriving DecidableEq

inductive RevokeMemberError
  | addError (e : AddError)
  | noProof
  | signingError
  | redelegationError (e : AddGroupMemberError)
deriving DecidableEq

/-- The operations that a call has issued. -/
structure RevokeMemberUpdate (T : Type) where
  revocations : List (SignedRevocation T)
  redelegations : List (SignedDelegation T)

section

variable {T : Type} [DecidableEq T] (hash : MembershipOperation T → MembershipDigest) (walks : CallOrder T)
  (signer : Signer T) (afterContent : ExtTreeMap Identifier (List T))

/-- Receive an operation. One that is turned down changes nothing. -/
def receiveInPlace (op : MembershipOperation T) : EStateM AddError (Call T) PUnit := fun call =>
  match call.group.receive hash (walks.order call.asked) call.stores op with
  | .ok (_, group, stores) => .ok ⟨⟩ { call with group, stores, received := call.received ++ [op] }
  | .error e => .error e call

/-! ### Adding a member -/

/-- What the signer acts under when they add a member. -/
def proofToAdd (group : Group T) (can : Access) : Except AddGroupMemberError (Option (SignedDelegation T)) :=
  if group.state.id = signer.verifyingKey then .ok none
  else
    match group.getCapability signer.verifyingKey with
    | none => .error .noProof
    | some proof =>
      if proof.payload.can < can then .error (.accessEscalation can proof.payload.can) else .ok (some proof)

def signDelegation (payload : Delegation T) : EStateM AddGroupMemberError (Call T) (SignedDelegation T) := fun call =>
  match signer.signDelegation call.asked payload with
  | some signature => .ok ⟨payload, signer.verifyingKey, signature⟩ { call with asked := call.asked + 1 }
  | none => .error .signingError { call with asked := call.asked + 1 }

def addMemberWithManualContent (memberToAdd : Agent) (can : Access) :
    EStateM AddGroupMemberError (Call T) (SignedDelegation T) := do
  let call ← get
  let proof ← ofExcept (proofToAdd signer call.group can)
  let delegation ← signDelegation signer {
    delegate := memberToAdd
    can
    proof
    afterRevocations := ((walks.order call.asked).revocations call.group.state.revocationHeads.toList).map Prod.snd
    afterContent }
  mapError .addError (receiveInPlace hash walks (.delegation delegation))
  return delegation

/-! ### Revoking a member -/

def buildRevocation (revoke : SignedDelegation T) (proof : Option (SignedDelegation T)) :
    EStateM RevokeMemberError (Call T) (SignedRevocation T) := fun call =>
  match signer.signRevocation call.asked ⟨revoke, proof, afterContent⟩ with
  | some signature =>
    .ok ⟨⟨revoke, proof, afterContent⟩, signer.verifyingKey, signature⟩ { call with asked := call.asked + 1 }
  | none => .error .signingError { call with asked := call.asked + 1 }

def revokeWith (toRevoke : SignedDelegation T) (proof : Option (SignedDelegation T)) :
    EStateM RevokeMemberError (Call T) (SignedRevocation T) := do
  let r ← buildRevocation signer afterContent toRevoke proof
  mapError .addError (receiveInPlace hash walks (.revocation r))
  return r

/-- The admin proofs of the signer. Only delegations to the member that is removed are looked at, so these are the
signer's own if they remove themself, and none otherwise. -/
def adminProofs (memberToRemove : Identifier) (group : Group T) : List (SignedDelegation T) :=
  (group.members.delegationsTo signer.verifyingKey).filter fun memDlg =>
    memDlg.payload.delegate.id = memberToRemove ∧ memDlg.payload.can = .admin

/-- The delegation itself if the signer has issued it, or else its first ancestor that they have. -/
def ownProof (vk : Identifier) (toRevoke : SignedDelegation T) : Option (SignedDelegation T) :=
  if toRevoke.issuer = vk then some toRevoke
  else toRevoke.proofLineage.find? fun ancestor => ancestor.issuer = vk

/-- The proofs that a delegation is revoked by. The group's own key needs none; others may have several, their admin
proofs first. -/
def proofsToRevoke (memberToRemove : Identifier) (group : Group T) (toRevoke : SignedDelegation T) :
    List (Option (SignedDelegation T)) :=
  if signer.verifyingKey = group.state.id then [none]
  else (adminProofs signer memberToRemove group ++ (ownProof signer.verifyingKey toRevoke).toList).map some

/-- Revoke one delegation to the member, by every proof that there is. -/
def revokeDelegation (memberToRemove : Identifier) (toRevoke : SignedDelegation T) :
    EStateM RevokeMemberError (Call T) (List (SignedRevocation T)) := do
  let call ← get
  let proofs := proofsToRevoke signer memberToRemove call.group toRevoke
  if proofs.isEmpty then throw .noProof
  proofs.mapM (revokeWith hash walks signer afterContent toRevoke)

/-- The delegations by the member to others, as far as they are listed. -/
def dependents (memberToRemove : Identifier) (ogDlgs : List (SignedDelegation T)) : List (SignedDelegation T) :=
  ogDlgs.filter fun dlg =>
    dlg.payload.delegate.id ≠ memberToRemove ∧
      (dlg.payload.proof.any fun proof => proof.payload.delegate.id = memberToRemove) = true

/-- The delegations to the member are revoked one after another. -/
def revokeAll (memberToRemove : Identifier) (group : Group T) :
    EStateM RevokeMemberError (Call T) (List (SignedRevocation T)) := do
  let revocations ← (group.members.delegationsTo memberToRemove).mapM
    (revokeDelegation hash walks signer afterContent memberToRemove)
  return revocations.flatten

/-- The dependents are delegated to anew. -/
def redelegateAll (memberToRemove : Identifier) (group : Group T) :
    EStateM RevokeMemberError (Call T) (List (SignedDelegation T)) :=
  (dependents memberToRemove ((walks.members group.members.toList).flatMap fun entry => entry.2.toList)).mapM
    fun dlg => mapError .redelegationError
      (addMemberWithManualContent hash walks signer afterContent dlg.payload.delegate dlg.payload.can)

def revokeMember (memberToRemove : Identifier) (retainAllOtherMembers : Bool) :
    EStateM RevokeMemberError (Call T) (RevokeMemberUpdate T) := do
  let call ← get
  if (call.group.members.delegationsTo memberToRemove).isEmpty then
    set { call with group := { call.group with members := call.group.members.erase memberToRemove } }
    return ⟨[], []⟩
  let revocations ← revokeAll hash walks signer afterContent memberToRemove call.group
  if retainAllOtherMembers then
    let redelegations ← redelegateAll hash walks signer afterContent memberToRemove call.group
    return ⟨revocations, redelegations⟩
  return ⟨revocations, []⟩

def Call.start (group : Group T) (stores : Stores T) : Call T := ⟨group, stores, 0, []⟩

end

end KeyhiveEval.Core
