/-
**`group.rs`: the members of a group.**

`Group.rebuild` computes the members anew from the heads: it takes the operations in the order of
`reverseTopsort`, from the last to the first, keeps the delegations that are in play, and lets every
revocation drop what it revokes.

* A delegation whose proof is not in play is still admitted if the *issuer of the proof* has another
  delegation of at least the proof's access, or is the group itself.
* A revocation drops the delegation that it names from the members. The delegations under that one
  leave play, and count as revoked, but stay listed: what the work list comes to has left play
  already (`cascade`).
-/

import KeyhiveEval.Core.ReverseTopsort

namespace KeyhiveEval.Core

open Std Beekem

structure NonEmpty (α : Type) where
  head : α
  tail : List α

namespace NonEmpty

variable {α : Type}

def toList (list : NonEmpty α) : List α := list.head :: list.tail

def push (list : NonEmpty α) (value : α) : NonEmpty α := ⟨list.head, list.tail ++ [value]⟩

def fromVec : List α → Option (NonEmpty α)
  | [] => none
  | head :: tail => some ⟨head, tail⟩

theorem fromVec_eq_none {list : List α} : fromVec list = none ↔ list = [] := by
  cases list <;> simp [fromVec]

theorem toList_fromVec {list : List α} {result : NonEmpty α} (made : fromVec list = some result) :
    result.toList = list := by
  cases list with
  | nil => simp [fromVec] at made
  | cons head tail =>
    obtain rfl := Option.some.inj made
    rfl

end NonEmpty

/-- The members of a group, each with the delegations to them. -/
abbrev Members (T : Type) := ExtTreeMap Identifier (NonEmpty (SignedDelegation T))

def Members.delegationsTo {T : Type} (members : Members T) (id : Identifier) :
    List (SignedDelegation T) :=
  match members[id]? with
  | some dlgs => dlgs.toList
  | none => []

structure Rebuild (T : Type) where
  members : Members T
  activeRevocations : ExtTreeMap Signature (SignedRevocation T)
  dlgsInPlay : ExtTreeMap Signature (SignedDelegation T)
  revokedDlgs : ExtTreeSet Signature
  /-- To each delegation the delegations that it is the proof of. -/
  reverseDlgDepMap : ExtTreeMap Signature (ExtTreeSet Signature)

namespace Rebuild

variable {T : Type}

def start : Rebuild T := ⟨∅, ∅, ∅, ∅, ∅⟩

/-- The proof was revoked, or never came into play. -/
def proofIsDead (state : Rebuild T) (proof : SignedDelegation T) : Bool :=
  state.revokedDlgs.contains proof.signature || !state.dlgsInPlay.contains proof.signature

/-! ### Delegations -/

/-- Put a delegation into play, unless it was revoked. -/
def enlist (state : Rebuild T) (dlg : SignedDelegation T) : Rebuild T :=
  if state.revokedDlgs.contains dlg.signature then state
  else
    { state with
      dlgsInPlay := state.dlgsInPlay.insert dlg.signature dlg
      members := state.members.insert dlg.payload.delegate.id
        (match state.members[dlg.payload.delegate.id]? with
        | some dlgs => dlgs.push dlg
        | none => ⟨dlg, []⟩) }

/-- Is a delegation admitted although its proof is dead? -/
def hasAlternative (vk : Identifier) (state : Rebuild T) (proof : SignedDelegation T) : Bool :=
  match state.members[proof.issuer]? with
  | some altProofs =>
    !(altProofs.toList.filter fun dlg => !dlg.same proof).all fun alt =>
      decide (alt.payload.can < proof.payload.can)
  | none => decide (proof.issuer = vk)

def takeDelegation (vk : Identifier) (state : Rebuild T) (dlg : SignedDelegation T) : Rebuild T :=
  match dlg.payload.proof with
  | some proof =>
    let state :=
      { state with
        reverseDlgDepMap := insertAt state.reverseDlgDepMap proof.signature dlg.signature }
    if state.proofIsDead proof && !state.hasAlternative vk proof then state else state.enlist dlg
  | none => if dlg.issuer ≠ vk then state else state.enlist dlg

/-! ### Revocations -/

structure Cascade (T : Type) where
  dlgsInPlay : ExtTreeMap Signature (SignedDelegation T)
  revokedDlgs : ExtTreeSet Signature
  toDrop : List (Identifier × Signature)
  nextToRevoke : List Signature

/-- A delegation under a revoked one is revoked, and leaves play. -/
def Cascade.revokeDependent (cascade : Cascade T) (sig : Signature) : Cascade T :=
  let cascade := { cascade with revokedDlgs := cascade.revokedDlgs.insert sig }
  match cascade.dlgsInPlay[sig]? with
  | some dlg =>
    { cascade with
      dlgsInPlay := cascade.dlgsInPlay.erase sig
      nextToRevoke := dlg.signature :: cascade.nextToRevoke }
  | none => cascade

/-- Revoke one signature: what has it in play leaves play and is dropped. -/
def Cascade.revoke (cascade : Cascade T) (sig : Signature) : Cascade T :=
  let cascade := { cascade with revokedDlgs := cascade.revokedDlgs.insert sig }
  match cascade.dlgsInPlay[sig]? with
  | some dlg =>
    { cascade with
      dlgsInPlay := cascade.dlgsInPlay.erase sig
      toDrop := cascade.toDrop ++ [(dlg.payload.delegate.id, sig)] }
  | none => cascade

/-- One turn of the loop over the work list. -/
def Cascade.step (order : HashOrder T) (reverseDlgDepMap : ExtTreeMap Signature (ExtTreeSet Signature))
    (cascade : Cascade T) (sig : Signature) : Cascade T :=
  match reverseDlgDepMap[sig]? with
  | some sigs => (order.signatures sigs.toList).foldl revokeDependent (cascade.revoke sig)
  | none => cascade.revoke sig

/-- The loop over the work list. All but the first entry have left play, so there are at most as many
as were in play. -/
def cascadeLoop (order : HashOrder T) (reverseDlgDepMap : ExtTreeMap Signature (ExtTreeSet Signature)) :
    Nat → Cascade T → Cascade T
  | 0, cascade => cascade
  | fuel + 1, cascade =>
    match cascade.nextToRevoke with
    | [] => cascade
    | sig :: rest =>
      cascadeLoop order reverseDlgDepMap fuel
        (Cascade.step order reverseDlgDepMap { cascade with nextToRevoke := rest } sig)

/-- The cascade that starts at one signature. -/
def cascade (order : HashOrder T) (state : Rebuild T) (sig : Signature) : Cascade T :=
  cascadeLoop order state.reverseDlgDepMap (state.dlgsInPlay.size + 2)
    ⟨state.dlgsInPlay, state.revokedDlgs, [], [sig]⟩

def dropMember (members : Members T) (entry : Identifier × Signature) : Members T :=
  match NonEmpty.fromVec ((members.delegationsTo entry.1).filter fun dlg => dlg.signature ≠ entry.2) with
  | some dlgs => members.insert entry.1 dlgs
  | none => members.erase entry.1

/-- Does a revocation take effect? If its proof is dead and the issuer of the proof is a member, one of
their delegations has to reach the proof's access. -/
def isEffective (vk : Identifier) (state : Rebuild T) (rev : SignedRevocation T) : Bool :=
  match rev.payload.proof with
  | some proof =>
    if state.proofIsDead proof then
      match state.members[proof.issuer]? with
      | some altProofs => altProofs.toList.any fun alt => decide (proof.payload.can ≤ alt.payload.can)
      | none => true
    else true
  | none => decide (rev.issuer = vk)

def applyRevocation (order : HashOrder T) (state : Rebuild T) (rev : SignedRevocation T) : Rebuild T :=
  let cascade := state.cascade order rev.payload.revoke.signature
  { state with
    activeRevocations := state.activeRevocations.insert rev.signature rev
    dlgsInPlay := cascade.dlgsInPlay
    revokedDlgs := cascade.revokedDlgs
    members := cascade.toDrop.foldl dropMember state.members }

def takeRevocation (vk : Identifier) (order : HashOrder T) (state : Rebuild T)
    (rev : SignedRevocation T) : Rebuild T :=
  if state.isEffective vk rev then state.applyRevocation order rev else state

def take (vk : Identifier) (order : HashOrder T) (state : Rebuild T) : MembershipOperation T → Rebuild T
  | .delegation dlg => state.takeDelegation vk dlg
  | .revocation rev => state.takeRevocation vk order rev

end Rebuild

/-! ### Groups -/

/-- A group: its causal state, and the members and revocations in effect. -/
structure Group (T : Type) where
  members : Members T
  activeRevocations : ExtTreeMap Signature (SignedRevocation T)
  state : GroupState T

namespace Group

variable {T : Type} (hash : MembershipOperation T → MembershipDigest)

def rebuildOrder (order : HashOrder T) (state : GroupState T) : List (MembershipOperation T) :=
  ((reverseTopsort hash order state.delegationHeads state.revocationHeads).map Prod.snd).reverse

/-- Compute the members and the revocations in effect from the heads. -/
def rebuild (order : HashOrder T) (group : Group T) : Group T :=
  let result := (rebuildOrder hash order group.state).foldl
    (Rebuild.take group.state.id order) .start
  { group with
    members := result.members
    activeRevocations := result.activeRevocations }

def new (order : HashOrder T) (head : SignedDelegation T) (stores : Stores T) : Group T × Stores T :=
  let (state, stores) := GroupState.new hash head stores
  (rebuild hash order ⟨∅, ∅, state⟩, stores)

/-- The delegation to a member with the most access; of several the last. -/
def getCapability (group : Group T) (memberId : Identifier) : Option (SignedDelegation T) :=
  match group.members[memberId]? with
  | some dlgs => some (dlgs.tail.foldl (fun best dlg =>
      if dlg.payload.can < best.payload.can then best else dlg) dlgs.head)
  | none => none

def receiveDelegation [DecidableEq T] (order : HashOrder T) (group : Group T) (stores : Stores T)
    (dlg : SignedDelegation T) : Except AddError (MembershipDigest × Group T × Stores T) := do
  let (digest, state, stores) ← group.state.addDelegation hash order stores dlg
  return (digest, rebuild hash order { group with state }, stores)

def receiveRevocation (order : HashOrder T) (group : Group T) (stores : Stores T)
    (rev : SignedRevocation T) : Except AddError (MembershipDigest × Group T × Stores T) := do
  let (digest, state, stores) ← group.state.addRevocation hash stores rev
  return (digest, rebuild hash order { group with state }, stores)

end Group

end KeyhiveEval.Core
