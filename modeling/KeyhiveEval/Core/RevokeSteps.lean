/-
**What a call has received when it returns, and why it fails when it fails.**

One lemma for each method of `RevokeMember`: the operations that it has received, and for each of its errors the check
that was not met and the group as it was then.

* `Going` — in the course of a call the group is one of a run; whatever the call refers to was received before.
* `Revoked`, `Redelegated` — the two halves of a call.
* `revokeMember_spec` — the whole call.
-/

import KeyhiveEval.Core.Authority
import KeyhiveEval.Core.ProofChains
import KeyhiveEval.Core.RevokeMember

set_option linter.unusedSectionVars false

namespace KeyhiveEval.Core

open Std Beekem Stateful OrderedSets

section

variable {T : Type} [DecidableEq T] {hash : MembershipOperation T → MembershipDigest} {walks : CallOrder T}
  {signer : Signer T} {afterContent : ExtTreeMap Identifier (List T)}

/-! ### What is listed -/

variable {group : Group T} {id : Identifier} {dlg : SignedDelegation T}

theorem Group.Grown.mem_of_listed
    {ops : List (MembershipOperation T)} (grown : Group.Grown hash ops group)
    (listed : dlg ∈ group.members.delegationsTo id) :
    .delegation dlg ∈ ops ∧ dlg.payload.delegate.id = id := by
  obtain ⟨order, rebuilt⟩ := grown.rebuilt
  rw [rebuilt] at listed
  obtain ⟨taken, under⟩ := Rebuild.mem_of_listed group.state.id order _ listed
  exact ⟨grown.state.mem_of_mem_rebuildOrder taken, under⟩

theorem Group.mem_of_getCapability
    (found : group.getCapability id = some dlg) : dlg ∈ group.members.delegationsTo id := by
  unfold Group.getCapability at found
  unfold Members.delegationsTo
  cases dlgs : group.members[id]? with
  | none => simp [dlgs] at found
  | some dlgs' =>
    simp only [dlgs, Option.some.injEq] at found
    rw [← found]
    -- The best of a list is in it, whichever comparison picks it.
    have picked (list : List (SignedDelegation T)) (best : SignedDelegation T) :
        list.foldl (fun best dlg => if dlg.payload.can < best.payload.can then best else dlg) best ∈ best :: list := by
      induction list generalizing best with
      | nil => exact List.mem_cons_self
      | cons dlg rest ih =>
        rw [List.foldl_cons]
        split
        · rcases List.mem_cons.mp (ih best) with same | later
          · rw [same]
            exact List.mem_cons_self
          · exact List.mem_cons_of_mem _ (List.mem_cons_of_mem _ later)
        · exact List.mem_cons_of_mem _ (ih dlg)
    exact picked _ _

/-! ### What a call does -/

section Spec

variable {ops : List (MembershipOperation T)} {call : Call T}

/-- **What holds in the course of a call:** the group is one of a run that has received the operations of the call. -/
def Going (hash : MembershipOperation T → MembershipDigest) (ops : List (MembershipOperation T)) (call : Call T) : Prop :=
  Group.Grown hash (ops ++ call.received) call.group

/-- A step of a call that failed has left the group as it was. -/
structure Unchanged (before after : Call T) : Prop where
  group : after.group = before.group
  received : after.received = before.received

/-- A step of a call has received one operation. -/
structure Received (hash : MembershipOperation T → MembershipDigest) (ops : List (MembershipOperation T))
    (before : Call T) (op : MembershipOperation T) (after : Call T) : Prop where
  going : Going hash ops after
  received : after.received = before.received ++ [op]
  id : after.group.state.id = before.group.state.id
  isHead : ∀ rev, op = .revocation rev → after.group.state.revocationHeads[hash op]? = some rev
  headsKept : ∀ rev, op = .revocation rev → ∀ key ∈ before.group.state.revocationHeads,
    key ∈ after.group.state.revocationHeads

variable {op : MembershipOperation T}

theorem receiveInPlace_spec (going : Going hash ops call)
    (known : ∀ before ∈ op.afterAuth, before ∈ ops ++ call.received) :
    After (receiveInPlace hash walks op call) (fun _ after => Received hash ops call op after)
      fun e after => after = call ∧ call.group.state.check op = .error e := by
  unfold receiveInPlace
  cases outcome : call.group.receive hash (walks.order call.asked) call.stores op with
  | error e =>
    refine ⟨rfl, ?_⟩
    cases checked : call.group.state.check op with
    | ok _ =>
      obtain ⟨stores, added⟩ := GroupState.add_of_check hash (walks.order call.asked) call.stores checked
      cases op with
      | delegation dlg =>
        change call.group.state.addDelegation hash _ _ dlg = _ at added
        simp [Group.receive, Group.receiveDelegation, added, bind, Except.bind, pure, Except.pure] at outcome
      | revocation rev =>
        change call.group.state.addRevocation hash _ rev = _ at added
        simp [Group.receive, Group.receiveRevocation, added, bind, Except.bind, pure, Except.pure] at outcome
    | error e' =>
      cases op with
      | delegation dlg =>
        change call.group.state.checkDelegation dlg = _ at checked
        simp [Group.receive, Group.receiveDelegation, GroupState.addDelegation, checked, bind, Except.bind] at outcome
        rw [outcome]
      | revocation rev =>
        change call.group.state.checkRevocation rev = _ at checked
        simp [Group.receive, Group.receiveRevocation, GroupState.addRevocation, checked, bind, Except.bind] at outcome
        rw [outcome]
  | ok result =>
    obtain ⟨digest, group, stores⟩ := result
    have state : group.state = call.group.state.after hash (walks.order call.asked) op :=
      (GroupState.add_ok hash (Group.receive_ok outcome).1).2
    refine ⟨?_, rfl, ?_, ?_, ?_⟩
    · show Group.Grown hash (ops ++ (call.received ++ [op])) group
      rw [← List.append_assoc]
      exact going.receive known outcome
    · show group.state.id = _
      rw [state, GroupState.after_id]
    · rintro rev rfl
      show group.state.revocationHeads[_]? = _
      rw [state]
      show (call.group.state.revocationHeads.insert _ rev)[_]? = _
      rw [getElem?_insert_iff, if_pos rfl]
    · rintro rev rfl key present
      show key ∈ group.state.revocationHeads
      rw [state]
      exact mem_map_insert_iff.mpr (.inr present)

/-- Why a revocation was not received. -/
def RevocationFails (signer : Signer T) (afterContent : ExtTreeMap Identifier (List T)) (toRevoke : SignedDelegation T)
    (proof : Option (SignedDelegation T)) (call : Call T) : RevokeMemberError → Prop
  | .signingError => signer.signRevocation call.asked ⟨toRevoke, proof, afterContent⟩ = none
  | .addError e => ∃ signature, signer.signRevocation call.asked ⟨toRevoke, proof, afterContent⟩ = some signature ∧
      call.group.state.checkRevocation ⟨⟨toRevoke, proof, afterContent⟩, signer.verifyingKey, signature⟩ = .error e
  | _ => False

variable {toRevoke : SignedDelegation T} {proof : Option (SignedDelegation T)}

theorem revokeWith_spec (going : Going hash ops call) (known : .delegation toRevoke ∈ ops ++ call.received)
    (proofKnown : ∀ dlg ∈ proof, .delegation dlg ∈ ops ++ call.received) :
    After (revokeWith hash walks signer afterContent toRevoke proof call)
      (fun r after => Received hash ops call (.revocation r) after ∧ r.payload = ⟨toRevoke, proof, afterContent⟩ ∧
        r.issuer = signer.verifyingKey)
      fun e after => Unchanged call after ∧ RevocationFails signer afterContent toRevoke proof call e := by
  unfold revokeWith
  rw [after_bind]
  unfold buildRevocation
  cases signed : signer.signRevocation call.asked ⟨toRevoke, proof, afterContent⟩ with
  | none => exact ⟨⟨rfl, rfl⟩, signed⟩
  | some signature =>
    rw [after_ok, after_bind, after_mapError]
    have asked : Going hash ops { call with asked := call.asked + 1 } := going
    refine (receiveInPlace_spec asked ?_).mono
      (fun _ after received => ?_) fun e after failed => ?_
    · intro before refers
      rcases List.mem_cons.mp refers with rfl | given
      · exact known
      · obtain ⟨dlg, listed, rfl⟩ := List.mem_map.mp given
        exact proofKnown dlg (Option.mem_toList.mp listed)
    · exact ⟨⟨received.going, received.received, received.id, received.isHead, received.headsKept⟩, rfl, rfl⟩
    · obtain ⟨rfl, checked⟩ := failed
      exact ⟨⟨rfl, rfl⟩, signature, signed, checked⟩

theorem revokeWith_fails {e : RevokeMemberError}
    (fails : RevocationFails signer afterContent toRevoke proof call e) :
    After (revokeWith hash walks signer afterContent toRevoke proof call) (fun _ _ => False)
      fun e' after => e' = e ∧ Unchanged call after := by
  unfold revokeWith
  rw [after_bind]
  unfold buildRevocation
  cases e with
  | signingError =>
    rw [show signer.signRevocation call.asked ⟨toRevoke, proof, afterContent⟩ = none from fails]
    exact ⟨rfl, rfl, rfl⟩
  | addError e =>
    obtain ⟨signature, signed, checked⟩ := fails
    rw [signed, after_ok, after_bind, after_mapError]
    unfold receiveInPlace
    simp only [Group.receive, Group.receiveRevocation, GroupState.addRevocation, checked, bind, Except.bind]
    exact ⟨rfl, rfl, rfl⟩
  | noProof => exact fails.elim
  | redelegationError e => exact fails.elim

/-- **Some revocations were received in the course of a call.** -/
structure Revoked (hash : MembershipOperation T → MembershipDigest) (ops : List (MembershipOperation T))
    (before : Call T) (revs : List (SignedRevocation T)) (after : Call T) : Prop where
  going : Going hash ops after
  received : after.received = before.received ++ revs.map .revocation
  id : after.group.state.id = before.group.state.id
  heads : ∀ r ∈ revs, hash (.revocation r) ∈ after.group.state.revocationHeads
  headsKept : ∀ key ∈ before.group.state.revocationHeads, key ∈ after.group.state.revocationHeads
  nothing : revs = [] → after.group = before.group

theorem Revoked.refl (going : Going hash ops call) : Revoked hash ops call [] call :=
  ⟨going, by simp, rfl, by simp, fun _ present => present, fun _ => rfl⟩

variable {mid after : Call T} {revs : List (SignedRevocation T)}

theorem Revoked.snoc {r : SignedRevocation T}
    (revoked : Revoked hash ops call revs mid) (received : Received hash ops mid (.revocation r) after) :
    Revoked hash ops call (revs ++ [r]) after where
  going := received.going
  received := by rw [received.received, revoked.received, List.append_assoc, List.map_append, List.map_singleton]
  id := received.id.trans revoked.id
  heads r' member := by
    rcases List.mem_append.mp member with old | new
    · exact received.headsKept r rfl _ (revoked.heads r' old)
    · rw [List.mem_singleton.mp new]
      exact mem_iff_exists.mpr ⟨r, received.isHead r rfl⟩
  headsKept key present := received.headsKept r rfl key (revoked.headsKept key present)
  nothing none := absurd none (by simp)

theorem Revoked.append {more : List (SignedRevocation T)}
    (first : Revoked hash ops call revs mid) (second : Revoked hash ops mid more after) :
    Revoked hash ops call (revs ++ more) after where
  going := second.going
  received := by rw [second.received, first.received, List.append_assoc, List.map_append]
  id := second.id.trans first.id
  heads r member := by
    rcases List.mem_append.mp member with old | new
    · exact second.headsKept _ (first.heads r old)
    · exact second.heads r new
  headsKept key present := second.headsKept key (first.headsKept key present)
  nothing none := by
    obtain ⟨noneFirst, noneSecond⟩ := List.append_eq_nil_iff.mp none
    rw [second.nothing noneSecond, first.nothing noneFirst]

theorem Revoked.mem (revoked : Revoked hash ops call revs after) (known : op ∈ ops ++ call.received) :
    op ∈ ops ++ after.received := by
  rw [revoked.received, ← List.append_assoc]
  exact List.mem_append_left _ known

/-- The first revocation of a delegation is refused: there is no proof, or the signer fails, or it does not pass the
checks. -/
def Refused (signer : Signer T) (afterContent : ExtTreeMap Identifier (List T)) (memberToRemove : Identifier)
    (call : Call T) (toRevoke : SignedDelegation T) : Prop :=
  match proofsToRevoke signer memberToRemove call.group toRevoke with
  | [] => True
  | proof :: _ => ∃ e, RevocationFails signer afterContent toRevoke proof call e

variable {memberToRemove : Identifier}

theorem refused_of_no_proof
    (none : proofsToRevoke signer memberToRemove call.group toRevoke = []) :
    Refused signer afterContent memberToRemove call toRevoke := by
  unfold Refused
  rw [none]
  trivial

/-- Why a delegation could not be revoked; the proofs are those that were found when its turn came. -/
def DelegationFails (signer : Signer T) (afterContent : ExtTreeMap Identifier (List T)) (memberToRemove : Identifier)
    (turn call : Call T) (toRevoke : SignedDelegation T) (e : RevokeMemberError) : Prop :=
  (e = .noProof ∧ proofsToRevoke signer memberToRemove turn.group toRevoke = []) ∨
    ∃ proof ∈ proofsToRevoke signer memberToRemove turn.group toRevoke,
      RevocationFails signer afterContent toRevoke proof call e

theorem mem_of_ownProof {vk : Identifier} {proof : SignedDelegation T}
    (found : ownProof vk toRevoke = some proof) :
    proof ∈ toRevoke :: toRevoke.proofLineage ∧ proof.issuer = vk := by
  unfold ownProof at found
  split at found
  · rename_i issued
    obtain rfl := Option.some.inj found
    exact ⟨List.mem_cons_self, issued⟩
  · exact ⟨List.mem_cons_of_mem _ (List.mem_of_find?_eq_some found), by simpa using List.find?_some found⟩

theorem proofsToRevoke_known (going : Going hash ops call) (known : .delegation toRevoke ∈ ops ++ call.received)
    (listed : proof ∈ proofsToRevoke signer memberToRemove call.group toRevoke) :
    ∀ dlg ∈ proof, .delegation dlg ∈ ops ++ call.received := by
  intro dlg member
  unfold proofsToRevoke at listed
  split at listed
  · rw [List.mem_singleton.mp listed] at member
    exact absurd member (by simp)
  · obtain ⟨dlg', found, rfl⟩ := List.mem_map.mp listed
    obtain rfl : dlg' = dlg := Option.some.inj member
    rcases List.mem_append.mp found with admin | own
    · exact (Group.Grown.mem_of_listed going (List.mem_filter.mp admin).1).1
    · rcases List.mem_cons.mp (mem_of_ownProof (Option.mem_toList.mp own)).1 with rfl | above
      · exact known
      · exact (MembershipOperation.reaches_of_mem_proofLineage above).mem going.state.closed known

theorem revokeDelegation_spec (going : Going hash ops call) (known : .delegation toRevoke ∈ ops ++ call.received) :
    After (revokeDelegation hash walks signer afterContent memberToRemove toRevoke call)
      (fun revs after => Revoked hash ops call revs after ∧ revs ≠ [] ∧
        ¬ Refused signer afterContent memberToRemove call toRevoke ∧
        revs.map (fun r => r.payload.proof) = proofsToRevoke signer memberToRemove call.group toRevoke ∧
        ∀ r ∈ revs, r.payload.revoke = toRevoke)
      fun e after => ∃ revs mid, Revoked hash ops call revs mid ∧ Unchanged mid after ∧
        (revs = [] ↔ Refused signer afterContent memberToRemove call toRevoke) ∧
        DelegationFails signer afterContent memberToRemove call mid toRevoke e := by
  unfold revokeDelegation
  rw [after_bind, after_get]
  cases found : proofsToRevoke signer memberToRemove call.group toRevoke with
  | nil =>
    exact ⟨[], call, .refl going, ⟨rfl, rfl⟩, iff_of_true rfl (refused_of_no_proof found), .inl ⟨rfl, found⟩⟩
  | cons first others =>
    -- Before the first proof nothing has happened; after it something was received.
    have refused : Refused signer afterContent memberToRemove call toRevoke ↔
        ∃ e, RevocationFails signer afterContent toRevoke first call e := by
      unfold Refused
      rw [found]
    have loop := after_mapM (first :: others) (revokeWith hash walks signer afterContent toRevoke)
      (fun done revs s => Revoked hash ops call revs s ∧ (done = [] → s = call ∧ revs = []) ∧
        (done ≠ [] → revs ≠ [] ∧ ¬ Refused signer afterContent memberToRemove call toRevoke) ∧
        revs.map (fun r => r.payload.proof) = done ∧ ∀ r ∈ revs, r.payload.revoke = toRevoke)
      (fun e after => ∃ revs mid, Revoked hash ops call revs mid ∧ Unchanged mid after ∧
        (revs = [] ↔ Refused signer afterContent memberToRemove call toRevoke) ∧
        DelegationFails signer afterContent memberToRemove call mid toRevoke e)
      ⟨.refl going, fun _ => ⟨rfl, rfl⟩, fun none => absurd rfl none, rfl, by simp⟩ ?_
    · refine loop.mono (fun revs after holds => ?_) fun e after failed => failed
      obtain ⟨revoked, -, some, proofs, all⟩ := holds
      exact ⟨revoked, (some (by simp)).1, (some (by simp)).2, proofs, all⟩
    · rintro done proof rest revs s split ⟨revoked, fresh, some, proofs, all⟩
      have listed : proof ∈ proofsToRevoke signer memberToRemove call.group toRevoke := by
        rw [found, split]
        simp
      have step : After (revokeWith hash walks signer afterContent toRevoke proof s) _ _ :=
        revokeWith_spec revoked.going (revoked.mem known)
          fun dlg member => revoked.mem (proofsToRevoke_known going known listed dlg member)
      cases outcome : revokeWith hash walks signer afterContent toRevoke proof s with
      | ok r after =>
        rw [outcome] at step
        obtain ⟨received, payload, -⟩ := step
        refine ⟨revoked.snoc received, fun none => absurd none (by simp), fun _ => ⟨by simp, ?_⟩, ?_, ?_⟩
        · cases done with
          | nil =>
            obtain ⟨rfl, -⟩ := fresh rfl
            obtain ⟨rfl, -⟩ := List.cons.inj split
            rw [refused]
            rintro ⟨e, fails⟩
            -- The very same step has succeeded.
            have never : After (revokeWith hash walks signer afterContent toRevoke _ s) _ _ := revokeWith_fails fails
            rw [outcome] at never
            exact never
          | cons a done => exact (some (by simp)).2
        · rw [List.map_append, proofs, List.map_singleton, payload]
        · intro r' member
          rcases List.mem_append.mp member with old | new
          · exact all r' old
          · rw [List.mem_singleton.mp new, payload]
      | error e after =>
        rw [outcome] at step
        obtain ⟨unchanged, fails⟩ := step
        refine ⟨revs, s, revoked, unchanged, ?_, .inr ⟨proof, listed, fails⟩⟩
        cases done with
        | nil =>
          obtain ⟨rfl, rfl⟩ := fresh rfl
          obtain ⟨rfl, -⟩ := List.cons.inj split
          exact iff_of_true rfl (refused.mpr ⟨e, fails⟩)
        | cons a done => exact iff_of_false (some (by simp)).1 (some (by simp)).2

/-- Why the delegations to a member could not all be revoked, with the turn at which that became clear. -/
structure RevokingFails (hash : MembershipOperation T → MembershipDigest) (ops : List (MembershipOperation T))
    (signer : Signer T) (afterContent : ExtTreeMap Identifier (List T)) (memberToRemove : Identifier) (call : Call T)
    (e : RevokeMemberError) (after : Call T) (revs : List (SignedRevocation T)) (turn mid : Call T)
    (toRevoke : SignedDelegation T) : Prop where
  revoked : Revoked hash ops call revs mid
  unchanged : Unchanged mid after
  listed : toRevoke ∈ call.group.members.delegationsTo memberToRemove
  turnGoing : Going hash ops turn
  turnId : turn.group.state.id = call.group.state.id
  alone : call.group.members.delegationsTo memberToRemove = [toRevoke] → turn = call
  first : ∃ dlg, (call.group.members.delegationsTo memberToRemove).head? = some dlg ∧
    (revs = [] ↔ Refused signer afterContent memberToRemove call dlg)
  fails : DelegationFails signer afterContent memberToRemove turn mid toRevoke e

/-- Some of the delegations to a member were revoked, each by the proofs that were found when its turn came. -/
structure RevokedSome (hash : MembershipOperation T → MembershipDigest) (ops : List (MembershipOperation T))
    (signer : Signer T) (memberToRemove : Identifier) (call : Call T) (done : List (SignedDelegation T))
    (revs : List (SignedRevocation T)) (after : Call T) : Prop where
  revoked : Revoked hash ops call revs after
  all : ∀ dlg ∈ done, ∃ r ∈ revs, r.payload.revoke = dlg
  only : ∀ r ∈ revs, r.payload.revoke ∈ done
  proofs : ∀ r ∈ revs, ∃ turn, Going hash ops turn ∧ turn.group.state.id = call.group.state.id ∧
    r.payload.proof ∈ proofsToRevoke signer memberToRemove turn.group r.payload.revoke
  once : done.Nodup → (∀ turn, Going hash ops turn → turn.group.state.id = call.group.state.id →
      ∀ dlg, (proofsToRevoke signer memberToRemove turn.group dlg).length ≤ 1) →
    ∀ r ∈ revs, ∀ other ∈ revs, r.payload.revoke = other.payload.revoke → r = other

theorem RevokedSome.snoc {done : List (SignedDelegation T)}
    {more : List (SignedRevocation T)}
    (earlier : RevokedSome hash ops signer memberToRemove call done revs mid) (going : Going hash ops mid)
    (step : Revoked hash ops mid more after) (nonempty : more ≠ [])
    (proofs : more.map (fun r => r.payload.proof) = proofsToRevoke signer memberToRemove mid.group toRevoke)
    (about : ∀ r ∈ more, r.payload.revoke = toRevoke) :
    RevokedSome hash ops signer memberToRemove call (done ++ [toRevoke]) (revs ++ more) after where
  revoked := earlier.revoked.append step
  all dlg member := by
    rcases List.mem_append.mp member with old | new
    · obtain ⟨r, there, same⟩ := earlier.all dlg old
      exact ⟨r, List.mem_append_left _ there, same⟩
    · obtain ⟨r, there⟩ := List.exists_mem_of_ne_nil _ nonempty
      rw [List.mem_singleton.mp new]
      exact ⟨r, List.mem_append_right _ there, about r there⟩
  only r member := by
    rcases List.mem_append.mp member with old | new
    · exact List.mem_append_left _ (earlier.only r old)
    · rw [about r new]
      simp
  proofs r member := by
    rcases List.mem_append.mp member with old | new
    · exact earlier.proofs r old
    · refine ⟨mid, going, earlier.revoked.id, ?_⟩
      rw [about r new, ← proofs]
      exact List.mem_map_of_mem new
  once distinct few r member other member' same := by
    obtain ⟨distinct, -, apart⟩ := List.nodup_append.mp distinct
    -- What is revoked now was not revoked before.
    have never {first second : SignedRevocation T} (old : first ∈ revs) (new : second ∈ more)
        (same : first.payload.revoke = second.payload.revoke) : False :=
      apart _ (earlier.only first old) toRevoke (by simp) (same.trans (about second new))
    have length : more.length ≤ 1 := by
      rw [← List.length_map, proofs]
      exact few mid going earlier.revoked.id toRevoke
    rcases List.mem_append.mp member with old | new <;> rcases List.mem_append.mp member' with old' | new'
    · exact earlier.once distinct few r old other old' same
    · exact (never old new' same).elim
    · exact (never old' new same.symm).elim
    · obtain ⟨only, rfl⟩ := List.length_eq_one_iff.mp (Nat.le_antisymm length (List.length_pos_iff.mpr nonempty))
      exact (List.mem_singleton.mp new).trans (List.mem_singleton.mp new').symm

/-- What was done when the delegations to a member are revoked. -/
structure RevokedAll (hash : MembershipOperation T → MembershipDigest) (ops : List (MembershipOperation T))
    (signer : Signer T) (afterContent : ExtTreeMap Identifier (List T)) (memberToRemove : Identifier) (call : Call T)
    (revs : List (SignedRevocation T)) (after : Call T) : Prop
    extends RevokedSome hash ops signer memberToRemove call (call.group.members.delegationsTo memberToRemove) revs
      after where
  first : ∀ dlg, (call.group.members.delegationsTo memberToRemove).head? = some dlg →
    ¬ Refused signer afterContent memberToRemove call dlg

theorem revokeAll_spec (going : Going hash ops call) :
    After (revokeAll hash walks signer afterContent memberToRemove call.group call)
      (RevokedAll hash ops signer afterContent memberToRemove call)
      fun e after => ∃ revs turn mid toRevoke,
        RevokingFails hash ops signer afterContent memberToRemove call e after revs turn mid toRevoke := by
  unfold revokeAll
  rw [after_bind]
  have loop := after_mapM (call.group.members.delegationsTo memberToRemove)
    (revokeDelegation hash walks signer afterContent memberToRemove)
    (fun done results s => (done = [] → s = call ∧ results = []) ∧
      (∀ dlg, done.head? = some dlg → results.flatten ≠ [] ∧ ¬ Refused signer afterContent memberToRemove call dlg) ∧
      RevokedSome hash ops signer memberToRemove call done results.flatten s)
    (fun e after => ∃ revs turn mid toRevoke,
      RevokingFails hash ops signer afterContent memberToRemove call e after revs turn mid toRevoke)
    ⟨fun _ => ⟨rfl, rfl⟩, by simp, .refl going, by simp, by simp, by simp, by simp⟩ ?_
  · refine loop.mono (fun results after holds => ?_) fun e after failed => failed
    rw [after_pure]
    obtain ⟨-, first, revoked⟩ := holds
    exact ⟨revoked, fun dlg head => (first dlg head).2⟩
  · rintro done toRevoke rest results s split ⟨fresh, first, some⟩
    have revoked := some.revoked
    have listed : toRevoke ∈ call.group.members.delegationsTo memberToRemove := by
      rw [split]
      simp
    have known := revoked.mem (going.mem_of_listed listed).1
    have turn : After (revokeDelegation hash walks signer afterContent memberToRemove toRevoke s) _ _ :=
      revokeDelegation_spec revoked.going known
    refine turn.mono (fun revs after step => ?_) fun e after failed => ?_
    · obtain ⟨more, nonempty, notRefused, proofs, about⟩ := step
      rw [List.flatten_append, List.flatten_singleton]
      refine ⟨fun none => absurd none (by simp), fun dlg head => ?_,
        some.snoc revoked.going more nonempty proofs about⟩
      cases done with
      | nil =>
        obtain ⟨rfl, rfl⟩ := fresh rfl
        obtain rfl : toRevoke = dlg := Option.some.inj head
        exact ⟨by simpa using nonempty, notRefused⟩
      | cons other done =>
        obtain ⟨some, notRefused'⟩ := first dlg head
        exact ⟨by simp [some], notRefused'⟩
    · obtain ⟨revs, mid, more, unchanged, isFirst, fails⟩ := failed
      refine ⟨results.flatten ++ revs, s, mid, toRevoke, revoked.append more, unchanged, listed, revoked.going,
        revoked.id, fun alone => ?_, ?_, fails⟩
      · rw [split] at alone
        cases done with
        | nil => exact (fresh rfl).1
        | cons dlg done => simp at alone
      · cases done with
        | nil =>
          obtain ⟨rfl, rfl⟩ := fresh rfl
          exact ⟨toRevoke, by rw [split]; rfl, by simpa using isFirst⟩
        | cons dlg done =>
          obtain ⟨some, notRefused⟩ := first dlg rfl
          exact ⟨dlg, by rw [split]; rfl, iff_of_false (by simp [some]) notRefused⟩

/-! ### Delegating anew -/

/-- Why a member was not added. What the signer acts under was checked when they got it, so the group never turns the
delegation down. -/
def AdditionFails (signer : Signer T) (can : Access) (call : Call T) : AddGroupMemberError → Prop
  | .signingError => ∃ payload, signer.signDelegation call.asked payload = none
  | .noProof => call.group.state.id ≠ signer.verifyingKey ∧ call.group.getCapability signer.verifyingKey = none
  | .accessEscalation _ _ => call.group.state.id ≠ signer.verifyingKey ∧
      ∃ proof, call.group.getCapability signer.verifyingKey = some proof ∧ proof.payload.can < can
  | .addError _ => False

def MadeUnder (signer : Signer T) (known : List (MembershipOperation T)) (id : Identifier)
    (dlg : SignedDelegation T) : Prop :=
  (dlg.payload.proof = none ∧ id = signer.verifyingKey) ∨
    (id ≠ signer.verifyingKey ∧ ∃ proof, dlg.payload.proof = some proof ∧
      proof.payload.delegate.id = signer.verifyingKey ∧ .delegation proof ∈ known)

variable {group : Group T} {can : Access}

theorem proofToAdd_ok
    (found : proofToAdd signer group can = .ok proof) :
    (proof = none ∧ group.state.id = signer.verifyingKey) ∨
      (group.state.id ≠ signer.verifyingKey ∧
        ∃ dlg, proof = some dlg ∧ dlg ∈ group.members.delegationsTo signer.verifyingKey ∧ can ≤ dlg.payload.can) := by
  unfold proofToAdd at found
  split at found
  · rename_i own
    exact .inl ⟨(Except.ok.inj found).symm, own⟩
  · rename_i other
    cases capability : group.getCapability signer.verifyingKey with
    | none => simp [capability] at found
    | some dlg =>
      simp only [capability] at found
      split at found
      · simp at found
      · rename_i enough
        exact .inr ⟨other, dlg, (Except.ok.inj found).symm, Group.mem_of_getCapability capability,
          le_of_not_gt enough⟩

theorem proofToAdd_error {e : AddGroupMemberError}
    (failed : proofToAdd signer call.group can = .error e) : AdditionFails signer can call e := by
  unfold proofToAdd at failed
  split at failed
  · simp at failed
  · rename_i other
    cases capability : call.group.getCapability signer.verifyingKey with
    | none =>
      simp only [capability, Except.error.injEq] at failed
      rw [← failed]
      exact ⟨other, capability⟩
    | some dlg =>
      simp only [capability] at failed
      split at failed
      · rename_i less
        obtain rfl := Except.error.inj failed
        exact ⟨other, dlg, capability, less⟩
      · simp at failed

variable {admits : List (MembershipOperation T) → GroupState T → MembershipOperation T → Prop}
  {state : GroupState T}

/-- Whatever a group has received passes its checks. -/
theorem GroupState.Grown.checked (grown : GroupState.Grown hash admits ops state) : ∀ op ∈ ops, state.check op = .ok
    () := by
  induction grown with
  | start nonempty roots =>
    intro op member
    obtain ⟨dlg, listed, rfl⟩ := List.mem_map.mp member
    obtain ⟨root, -, issued⟩ := roots dlg listed
    refine checkDelegation_ok_iff.mpr ⟨?_, ?_, ?_⟩ <;> simp [chain, SignedDelegation.proofLineage_of_root root, issued]
    rfl
  | @add ops state state' stores stores' order op digest grown known meets accepted ih =>
    intro other member
    obtain ⟨checked, rfl⟩ := add_ok hash accepted
    -- A check looks at nothing but the identifier of the group.
    have same (op : MembershipOperation T) : (state.after hash order op).check other = state.check other := by
      cases op <;> cases other <;> rfl
    rw [same]
    rcases List.mem_append.mp member with old | new
    · exact ih other old
    · rw [List.mem_singleton.mp new]
      exact checked

variable {dlg : SignedDelegation T}

/-- A delegation under one that was received passes the checks. -/
theorem check_of_under (grown : GroupState.Grown hash admits ops state)
    (issued : dlg.issuer = signer.verifyingKey) (under : MadeUnder signer ops state.id dlg)
    (enough : ∀ proof, dlg.payload.proof = some proof → dlg.payload.can ≤ proof.payload.can) :
    state.checkDelegation dlg = .ok () := by
  refine GroupState.checkDelegation_ok_iff.mpr ?_
  rcases under with ⟨root, own⟩ | ⟨-, proof, given, made, known⟩
  · refine ⟨?_, ?_, ?_⟩ <;> simp [GroupState.chain, SignedDelegation.proofLineage_of_root root, issued, own]
  · have above : state.ChainOfAuthority proof := GroupState.checkDelegation_ok_iff.mp (grown.checked _ known)
    have lineage := SignedDelegation.proofLineage_of_proof given
    refine ⟨?_, ?_, fun link member => ?_⟩
    · have root := above.root
      simp only [GroupState.chain, lineage, List.getLast_cons_cons] at root ⊢
      exact root
    · rw [GroupState.chain, lineage, List.isChain_cons_cons]
      exact ⟨issued.trans made.symm, above.links⟩
    · rw [lineage] at member
      rcases List.mem_cons.mp member with rfl | further
      · exact enough link given
      · exact (enough proof given).trans (above.access link further)

theorem addMember_spec (going : Going hash ops call) {memberToAdd : Agent} :
    After (addMemberWithManualContent hash walks signer afterContent memberToAdd can call)
      (fun dlg after => Received hash ops call (.delegation dlg) after ∧ dlg.payload.delegate = memberToAdd ∧
        dlg.payload.can = can ∧ MadeUnder signer (ops ++ call.received) call.group.state.id dlg)
      fun e after => Unchanged call after ∧ AdditionFails signer can call e := by
  unfold addMemberWithManualContent
  rw [after_bind, after_get, after_bind]
  cases found : proofToAdd signer call.group can with
  | error e => exact ⟨⟨rfl, rfl⟩, proofToAdd_error found⟩
  | ok proof =>
    show After ((_ >>= _ : EStateM _ _ _) call) _ _
    rw [after_bind]
    unfold signDelegation
    generalize built : (⟨memberToAdd, can, proof,
      ((walks.order call.asked).revocations call.group.state.revocationHeads.toList).map Prod.snd, afterContent⟩ :
        Delegation T) = payload
    have under (signature : Signature) : MadeUnder signer (ops ++ call.received) call.group.state.id
        ⟨payload, signer.verifyingKey, signature⟩ := by
      rw [← built]
      rcases proofToAdd_ok found with ⟨none, own⟩ | ⟨other, dlg, given, listed, -⟩
      · exact .inl ⟨none, own⟩
      · obtain ⟨known, made⟩ := Group.Grown.mem_of_listed going listed
        exact .inr ⟨other, dlg, given, made, known⟩
    cases signed : signer.signDelegation call.asked payload with
    | none => exact ⟨⟨rfl, rfl⟩, payload, signed⟩
    | some signature =>
      rw [after_ok, after_bind, after_mapError]
      have asked : Going hash ops { call with asked := call.asked + 1 } := going
      refine (receiveInPlace_spec asked ?_).mono
        (fun _ after received => ?_) fun e after failed => ?_
      · intro before refers
        rw [← built] at refers
        rcases List.mem_append.mp refers with given | revoked
        · obtain ⟨dlg, listed, rfl⟩ := List.mem_map.mp given
          rcases under signature with ⟨without, -⟩ | ⟨-, dlg', given', -, known⟩
          · rw [← built] at without
            rw [show proof = none from without] at listed
            exact absurd listed (by simp)
          · rw [← built] at given'
            rw [show proof = some dlg' from given'] at listed
            obtain rfl : dlg = dlg' := by simpa using listed
            exact known
        · obtain ⟨rev, listed, rfl⟩ := List.mem_map.mp revoked
          obtain ⟨entry, there, rfl⟩ := List.mem_map.mp listed
          exact going.state.within (.revocation entry.2) ⟨entry.1, holds_of_mem_toList
            (((walks.order call.asked).revocations_perm _).mem_iff.mp there)⟩
      · rw [← built]
        rw [← built] at under
        exact ⟨⟨received.going, by rw [received.received, built], received.id, by simp, by simp⟩, rfl, rfl,
          under signature⟩
      · obtain ⟨-, turnedDown⟩ := failed
        have passes : call.group.state.checkDelegation ⟨payload, signer.verifyingKey, signature⟩ = .ok () := by
          refine check_of_under going.state rfl (under signature) fun proof' given => ?_
          rw [← built] at given ⊢
          rcases proofToAdd_ok found with ⟨without, -⟩ | ⟨-, dlg, given', -, enough⟩
          · rw [show proof = some proof' from given] at without
            simp at without
          · obtain rfl : proof' = dlg := Option.some.inj ((show proof = some proof' from given).symm.trans given')
            exact enough
        change call.group.state.checkDelegation _ = _ at turnedDown
        rw [passes] at turnedDown
        simp at turnedDown

/-- **Some delegations were received in the course of a call**, each made under an earlier one. -/
structure Redelegated (hash : MembershipOperation T → MembershipDigest) (ops : List (MembershipOperation T))
    (signer : Signer T) (before : Call T) (dlgs : List (SignedDelegation T)) (after : Call T) : Prop where
  going : Going hash ops after
  received : after.received = before.received ++ dlgs.map .delegation
  id : after.group.state.id = before.group.state.id
  under : ∀ first dlg last, dlgs = first ++ dlg :: last →
    MadeUnder signer (ops ++ before.received ++ first.map .delegation) before.group.state.id dlg

theorem Redelegated.refl (going : Going hash ops call) : Redelegated hash ops signer call [] call :=
  ⟨going, by simp, rfl, by simp⟩

theorem Redelegated.snoc {dlgs : List (SignedDelegation T)}
    (earlier : Redelegated hash ops signer call dlgs mid) (received : Received hash ops mid (.delegation dlg) after)
    (under : MadeUnder signer (ops ++ mid.received) mid.group.state.id dlg) :
    Redelegated hash ops signer call (dlgs ++ [dlg]) after where
  going := received.going
  received := by rw [received.received, earlier.received, List.append_assoc, List.map_append, List.map_singleton]
  id := received.id.trans earlier.id
  under first other last split := by
    rcases List.append_eq_append_iff.mp split with ⟨more, whole, rest⟩ | ⟨more, whole, rest⟩
    · cases more with
      | nil =>
        obtain ⟨rfl, -⟩ := List.cons.inj rest
        rw [List.append_nil] at whole
        rwa [whole, List.append_assoc, ← earlier.received, ← earlier.id]
      | cons => simp at rest
    · cases more with
      | nil =>
        obtain ⟨rfl, -⟩ := List.cons.inj rest
        rw [List.append_nil] at whole
        rwa [← whole, List.append_assoc, ← earlier.received, ← earlier.id]
      | cons other' more =>
        obtain ⟨rfl, rfl⟩ := List.cons.inj rest
        exact earlier.under first other more whole

/-- The delegations that the call looks at to keep the others: all that are listed. -/
theorem mem_ogDlgs :
    (dlg ∈ (walks.members group.members.toList).flatMap fun entry => entry.2.toList) ↔
      ∃ id, dlg ∈ group.members.delegationsTo id := by
  simp only [List.mem_flatMap, (walks.members_perm _).mem_iff, Prod.exists,
    ExtTreeMap.mem_toList_iff_getElem?_eq_some, Members.delegationsTo]
  constructor
  · rintro ⟨id, dlgs, found, member⟩
    exact ⟨id, by rwa [found]⟩
  · rintro ⟨id, member⟩
    cases found : group.members[id]? with
    | none => simp [found] at member
    | some dlgs =>
      rw [found] at member
      exact ⟨id, dlgs, found, member⟩

/-- **A dependent of a member:** a delegation to someone else that is listed and whose proof is made out to the
member. -/
def IsDependent (group : Group T) (memberToRemove : Identifier) (dlg : SignedDelegation T) : Prop :=
  (∃ id, dlg ∈ group.members.delegationsTo id) ∧ dlg.payload.delegate.id ≠ memberToRemove ∧
    ∃ proof, dlg.payload.proof = some proof ∧ proof.payload.delegate.id = memberToRemove

theorem mem_dependents :
    dlg ∈ dependents memberToRemove ((walks.members group.members.toList).flatMap fun entry => entry.2.toList) ↔
      IsDependent group memberToRemove dlg := by
  rw [dependents, List.mem_filter, mem_ogDlgs, IsDependent]
  simp [Option.any_eq_true]

/-- Why a dependent was not delegated to anew. -/
def RedelegationFails (signer : Signer T) (dlg : SignedDelegation T) (call : Call T) (e : RevokeMemberError) : Prop :=
  ∃ e', e = .redelegationError e' ∧ AdditionFails signer dlg.payload.can call e'

theorem redelegateAll_spec (going : Going hash ops call) :
    After (redelegateAll hash walks signer afterContent memberToRemove group call)
      (fun dlgs after => Redelegated hash ops signer call dlgs after ∧
        (∀ dlg, IsDependent group memberToRemove dlg →
          ∃ new ∈ dlgs, new.payload.delegate = dlg.payload.delegate ∧ new.payload.can = dlg.payload.can) ∧
        ∀ new ∈ dlgs, ∃ dlg, IsDependent group memberToRemove dlg ∧ new.payload.delegate = dlg.payload.delegate)
      fun e after => ∃ dlgs mid dlg, Redelegated hash ops signer call dlgs mid ∧ Unchanged mid after ∧
        IsDependent group memberToRemove dlg ∧ RedelegationFails signer dlg mid e ∧
        ∀ new ∈ dlgs, ∃ dlg, IsDependent group memberToRemove dlg ∧ new.payload.delegate = dlg.payload.delegate := by
  unfold redelegateAll
  have loop := after_mapM
    (dependents memberToRemove ((walks.members group.members.toList).flatMap fun entry => entry.2.toList))
    (fun dlg => mapError RevokeMemberError.redelegationError
      (addMemberWithManualContent hash walks signer afterContent dlg.payload.delegate dlg.payload.can))
    (fun done dlgs s => Redelegated hash ops signer call dlgs s ∧
      (∀ dlg ∈ done, ∃ new ∈ dlgs, new.payload.delegate = dlg.payload.delegate ∧ new.payload.can = dlg.payload.can) ∧
      ∀ new ∈ dlgs, ∃ dlg, IsDependent group memberToRemove dlg ∧ new.payload.delegate = dlg.payload.delegate)
    (fun e after => ∃ dlgs mid dlg, Redelegated hash ops signer call dlgs mid ∧ Unchanged mid after ∧
        IsDependent group memberToRemove dlg ∧ RedelegationFails signer dlg mid e ∧
        ∀ new ∈ dlgs, ∃ dlg, IsDependent group memberToRemove dlg ∧ new.payload.delegate = dlg.payload.delegate)
    ⟨.refl going, by simp, by simp⟩ ?_
  · refine loop.mono (fun dlgs after holds => ?_) fun e after failed => failed
    exact ⟨holds.1, fun dlg dependent => holds.2.1 dlg (mem_dependents.mpr dependent), holds.2.2⟩
  · rintro done dlg rest dlgs s split ⟨redelegated, all, only⟩
    have inList : dlg ∈ dependents memberToRemove
        ((walks.members group.members.toList).flatMap fun entry => entry.2.toList) := by
      rw [split]
      simp
    have dependent : IsDependent group memberToRemove dlg := mem_dependents.mp inList
    rw [after_mapError]
    refine (addMember_spec redelegated.going).mono (fun new after step => ?_) fun e after failed => ?_
    · obtain ⟨received, delegate, can, under⟩ := step
      refine ⟨redelegated.snoc received under, fun other member => ?_, fun other member => ?_⟩
      · rcases List.mem_append.mp member with old | last
        · obtain ⟨new', there, same⟩ := all other old
          exact ⟨new', List.mem_append_left _ there, same⟩
        · rw [List.mem_singleton.mp last]
          exact ⟨new, by simp, delegate, can⟩
      · rcases List.mem_append.mp member with old | last
        · exact only other old
        · rw [List.mem_singleton.mp last]
          exact ⟨dlg, dependent, delegate⟩
    · exact ⟨dlgs, s, dlg, redelegated, failed.1, dependent, ⟨e, rfl, failed.2⟩, only⟩

/-! ### The whole call -/

/-- What was done when a call returns. -/
structure RevokedMember (hash : MembershipOperation T → MembershipDigest) (ops : List (MembershipOperation T))
    (signer : Signer T) (afterContent : ExtTreeMap Identifier (List T)) (memberToRemove : Identifier) (retain : Bool)
    (call : Call T) (update : RevokeMemberUpdate T) (mid after : Call T) : Prop where
  revoked : RevokedAll hash ops signer afterContent memberToRemove call update.revocations mid
  redelegated : Redelegated hash ops signer mid update.redelegations after
  retained : retain = true → ∀ dlg, IsDependent call.group memberToRemove dlg →
    ∃ new ∈ update.redelegations, new.payload.delegate = dlg.payload.delegate ∧ new.payload.can = dlg.payload.can
  others : ∀ new ∈ update.redelegations, ∃ dlg, IsDependent call.group memberToRemove dlg ∧
    new.payload.delegate = dlg.payload.delegate

/-- Why the members could not all be kept: the member was removed, some of the dependents were delegated to anew, and
then one was not. -/
structure RetainingFails (hash : MembershipOperation T → MembershipDigest) (ops : List (MembershipOperation T))
    (signer : Signer T) (afterContent : ExtTreeMap Identifier (List T)) (memberToRemove : Identifier) (call : Call T)
    (e : RevokeMemberError) (after : Call T) (revs : List (SignedRevocation T)) (dlgs : List (SignedDelegation T))
    (mid turn : Call T) (dlg : SignedDelegation T) : Prop where
  some : call.group.members.delegationsTo memberToRemove ≠ []
  revoked : RevokedAll hash ops signer afterContent memberToRemove call revs mid
  redelegated : Redelegated hash ops signer mid dlgs turn
  unchanged : Unchanged turn after
  dependent : IsDependent call.group memberToRemove dlg
  fails : RedelegationFails signer dlg turn e
  others : ∀ new ∈ dlgs, ∃ dlg, IsDependent call.group memberToRemove dlg ∧
    new.payload.delegate = dlg.payload.delegate

/-- **What a call does.** For someone who is no member it changes nothing; otherwise it revokes, and delegates anew. -/
theorem revokeMember_spec (going : Going hash ops call) {retain : Bool} :
    After (revokeMember hash walks signer afterContent memberToRemove retain call)
      (fun update after =>
        (call.group.members.delegationsTo memberToRemove = [] ∧
          after = { call with group := { call.group with members := call.group.members.erase memberToRemove } }) ∨
        (call.group.members.delegationsTo memberToRemove ≠ [] ∧ ∃ mid,
          RevokedMember hash ops signer afterContent memberToRemove retain call update mid after))
      fun e after => (∃ revs turn mid toRevoke,
          RevokingFails hash ops signer afterContent memberToRemove call e after revs turn mid toRevoke) ∨
        (retain = true ∧ ∃ revs dlgs mid turn dlg,
          RetainingFails hash ops signer afterContent memberToRemove call e after revs dlgs mid turn dlg) := by
  unfold revokeMember
  rw [after_bind, after_get]
  by_cases none : call.group.members.delegationsTo memberToRemove = []
  · rw [if_pos (List.isEmpty_iff.mpr none)]
    exact .inl ⟨none, rfl⟩
  · rw [if_neg fun empty => none (List.isEmpty_iff.mp empty), after_bind]
    refine (revokeAll_spec going).mono (fun revs mid revoked => ?_) fun e after failed => .inl failed
    cases retain with
    | false =>
      refine .inr ⟨none, mid, revoked, .refl revoked.revoked.going, fun never => absurd never (by simp), by simp⟩
    | true =>
      show After ((_ >>= _ : EStateM _ _ _) mid) _ _
      rw [after_bind]
      refine (redelegateAll_spec revoked.revoked.going).mono (fun dlgs after holds => ?_) fun e after failed => ?_
      · exact .inr ⟨none, mid, revoked, holds.1, fun _ => holds.2.1, holds.2.2⟩
      · obtain ⟨dlgs, turn, dlg, redelegated, unchanged, dependent, fails, others⟩ := failed
        exact .inr ⟨rfl, revs, dlgs, mid, turn, dlg, none, revoked, redelegated, unchanged, dependent, fails, others⟩

end Spec

end

end KeyhiveEval.Core
