/-
**Who can remove a member, and who stays.**

`revoke_member` looks for the signer's administrator's rights among the delegations to the member that is removed, so
they help nobody but a signer who removes themself. Whoever has not issued a delegation above the member's is told that
they have no proof. The members that are to stay are delegated to anew, but only those whom the removed member has let
in directly.

* `Lasting` — supported without the member that is removed. `Settled` — lasting or barred.
* `Removed` — what a call has done when it has removed the member, before or after the others were delegated to anew.
* **`admin_removes`** — an administrator removes a member if they find lineal proofs and the member's delegations are
  settled; and they find such proofs in every call that returns.
* **`others_kept`** — those whose best delegation is lasting keep their access, and those whom the member has let in.
-/

import KeyhiveEval.Core.RevokeErrors
import KeyhiveEval.Core.Support

set_option linter.unusedSectionVars false

namespace KeyhiveEval.Core

open Std Beekem Stateful OrderedSets

section

variable {T : Type} [DecidableEq T] {hash : MembershipOperation T → MembershipDigest} {walks : CallOrder T}
  {signer : Signer T} {afterContent : ExtTreeMap Identifier (List T)} {ops : List (MembershipOperation T)}

/-! ### Members and their access -/

theorem Members.delegationsTo_eq_nil_iff {members : Members T} {id : Identifier} :
    members.delegationsTo id = [] ↔ id ∉ members := by
  rw [Members.delegationsTo, mem_iff_exists]
  cases members[id]? with
  | none => simp
  | some dlgs => simp [NonEmpty.toList]

theorem Group.getCapability_congr {group group' : Group T} {id : Identifier}
    (same : group'.members[id]? = group.members[id]?) : group'.getCapability id = group.getCapability id := by
  rw [Group.getCapability, Group.getCapability, same]

variable {dlg : SignedDelegation T}

/-- What is picked gives at least as much as anything else. -/
theorem Group.le_getCapability {group : Group T} {id : Identifier}
    (listed : dlg ∈ group.members.delegationsTo id) :
    ∃ best, group.getCapability id = some best ∧ dlg.payload.can ≤ best.payload.can := by
  obtain ⟨dlgs, found, member⟩ := Rebuild.mem_delegationsTo_iff.mp listed
  refine ⟨_, by rw [Group.getCapability, found], ?_⟩
  have picked (list : List (SignedDelegation T)) : ∀ best dlg : SignedDelegation T, dlg ∈ best :: list →
      dlg.payload.can ≤ (list.foldl (fun best dlg => if dlg.payload.can < best.payload.can then best else dlg)
        best).payload.can := by
    induction list with
    | nil =>
      intro best dlg member
      rw [List.mem_singleton.mp member]
      exact le_rfl
    | cons next rest ih =>
      intro best dlg member
      rw [List.foldl_cons]
      split
      · rename_i less
        rcases List.mem_cons.mp member with rfl | further
        · exact ih _ _ List.mem_cons_self
        · rcases List.mem_cons.mp further with rfl | further
          · exact less.le.trans (ih _ _ List.mem_cons_self)
          · exact ih _ _ (List.mem_cons_of_mem _ further)
      · rename_i enough
        rcases List.mem_cons.mp member with rfl | further
        · exact (le_of_not_gt enough).trans (ih _ _ List.mem_cons_self)
        · exact ih _ _ further
  exact picked _ _ _ member

/-! ### What lasts -/

/-- **A delegation is supported without the member that is removed.** Delegations to the member may be passed over, if
each of them is revoked once: a signer who removes themself may revoke by several proofs. -/
abbrev Lasting (ops : List (MembershipOperation T)) (signer : Signer T) (id member : Identifier) :
    SignedDelegation T → Prop :=
  Supported (fun dlg => Unrevoked ops dlg ∧ dlg.payload.delegate.id ≠ member)
    (fun dlg proof => Ahead ops dlg proof ∧
      (proof.payload.delegate.id = member → signer.verifyingKey = member → signer.verifyingKey = id))
    (NotMember ops id)

variable {member : Identifier}

/-- It is known whether a delegation is listed without the member that is removed. -/
def Settled (ops : List (MembershipOperation T)) (signer : Signer T) (id member : Identifier)
    (dlg : SignedDelegation T) : Prop :=
  Lasting ops signer id member dlg ∨ Barred ops id (Lasting ops signer id member) dlg

theorem Supported.of_lasting {id : Identifier}
    (lasting : Lasting ops signer id member dlg) : SupportedIn ops id dlg := by
  have closed : ∀ dlg proof : SignedDelegation T, True → dlg.payload.proof = some proof → True :=
    fun _ _ _ _ => trivial
  exact lasting.mono closed trivial (fun _ _ stays _ => stays.1) (fun _ _ _ _ _ ahead => ahead.1) fun own => own

variable {call : Call T}

/-- Only to those who remove themself their administrator's rights are of use. -/
theorem adminProofs_eq_nil (going : Going hash ops call)
    (other : signer.verifyingKey ≠ member) : adminProofs signer member call.group = [] :=
  List.filter_eq_nil_iff.mpr fun _ listed both =>
    other ((Group.Grown.mem_of_listed going listed).2.symm.trans (of_decide_eq_true both).1)

/-- Who does not remove themself has one proof at most. -/
theorem length_proofsToRevoke_le (going : Going hash ops call)
    (once : signer.verifyingKey = member → signer.verifyingKey = call.group.state.id) (dlg : SignedDelegation T) :
    (proofsToRevoke signer member call.group dlg).length ≤ 1 := by
  unfold proofsToRevoke
  split
  · exact Nat.le_refl 1
  · rename_i other
    rw [adminProofs_eq_nil going fun self => other (once self), List.nil_append, List.length_map]
    cases ownProof signer.verifyingKey dlg <;> simp

section Call

variable {group : Group T} {stores : Stores T} {member : Identifier} {revs : List (SignedRevocation T)}
  {dlgs : List (SignedDelegation T)} {mid after : Call T}

theorem going_start (grown : Group.Grown hash ops group) (stores : Stores T) :
    Going hash ops (Call.start group stores) := by
  unfold Going
  rwa [Call.start, List.append_nil]

/-- **A call has removed the member**, and has delegated to some of the others anew. -/
structure Removed (hash : MembershipOperation T → MembershipDigest) (ops : List (MembershipOperation T))
    (signer : Signer T) (afterContent : ExtTreeMap Identifier (List T)) (member : Identifier) (group : Group T)
    (stores : Stores T) (revs : List (SignedRevocation T)) (dlgs : List (SignedDelegation T)) (mid after : Call T) :
    Prop where
  revoked : RevokedAll hash ops signer afterContent member (.start group stores) revs mid
  redelegated : Redelegated hash ops signer mid dlgs after
  others : ∀ new ∈ dlgs, ∃ dlg, IsDependent group member dlg ∧ new.payload.delegate = dlg.payload.delegate

namespace Removed

theorem received (removed : Removed hash ops signer afterContent member group stores revs dlgs mid after) :
    after.received = revs.map .revocation ++ dlgs.map .delegation := by
  rw [removed.redelegated.received, removed.revoked.revoked.received]
  rfl

theorem id (removed : Removed hash ops signer afterContent member group stores revs dlgs mid after) :
    after.group.state.id = group.state.id :=
  removed.redelegated.id.trans removed.revoked.revoked.id

theorem mem_revocation (removed : Removed hash ops signer afterContent member group stores revs dlgs mid after)
    {rev : SignedRevocation T} (known : .revocation rev ∈ ops ++ after.received) :
    .revocation rev ∈ ops ∨ (rev ∈ revs ∧ rev.payload.revoke ∈ group.members.delegationsTo member) := by
  rw [removed.received] at known
  rcases List.mem_append.mp known with old | new
  · exact .inl old
  · have inRevs : rev ∈ revs := by simpa using new
    exact .inr ⟨inRevs, removed.revoked.only rev inRevs⟩

variable {dlg : SignedDelegation T}

theorem mem_delegation (removed : Removed hash ops signer afterContent member group stores revs dlgs mid after)
    (known : .delegation dlg ∈ ops ++ after.received) :
    .delegation dlg ∈ ops ∨ ∃ dependent, IsDependent group member dependent ∧
      dlg.payload.delegate = dependent.payload.delegate := by
  rw [removed.received] at known
  rcases List.mem_append.mp known with old | new
  · exact .inl old
  · exact .inr (removed.others dlg (by simpa using new))

/-- What is not made out to the member is not revoked by the call. -/
theorem unrevoked (removed : Removed hash ops signer afterContent member group stores revs dlgs mid after)
    (grown : Group.Grown hash ops group) (before : Unrevoked ops dlg)
    (other : dlg.payload.delegate.id ≠ member) : Unrevoked (ops ++ after.received) dlg := by
  intro rev known same
  rcases removed.mem_revocation known with old | ⟨-, listed⟩
  · exact before rev old same
  · exact other (same ▸ (grown.mem_of_listed listed).2)

variable (removed : Removed hash ops signer afterContent member group stores revs dlgs mid after)
  (grown : Group.Grown hash ops group) (identified : GroupState.Identified hash (ops ++ after.received))
  (once : GroupState.OncePerPayload (ops ++ after.received))

include removed grown identified once

theorem supported (here : .delegation dlg ∈ ops)
    (lasting : Lasting ops signer group.state.id member dlg) :
    SupportedIn (ops ++ after.received) group.state.id dlg := by
  refine lasting.mono (fun dlg proof known given => grown.state.closed _ known _ (mem_afterAuth_of_proof given)) here
    (fun dlg known stays _ => removed.unrevoked grown stays.1 stays.2) (fun dlg proof known given support ahead => ?_)
    fun own dlg known => ?_
  · intro rev other known' known'' same same'
    have proofKnown := grown.state.closed _ known _ (mem_afterAuth_of_proof given)
    -- What the call revokes was not revoked before.
    have fresh {first second : SignedRevocation T} (old : .revocation first ∈ ops)
        (listed : second.payload.revoke ∈ group.members.delegationsTo member)
        (one : first.payload.revoke = proof) (two : second.payload.revoke = proof) : False := by
      rw [two] at listed
      have under := (grown.mem_of_listed listed).2
      exact (grown.listed_iff_unrevoked identified.left once.left proofKnown (.of_lasting support)).mp
        (under.symm ▸ listed) first old one
    rcases removed.mem_revocation known' with old | ⟨new, listed⟩ <;>
      rcases removed.mem_revocation known'' with old' | ⟨new', listed'⟩
    · exact ahead.1 rev other old old' same same'
    · exact (fresh old listed' same same').elim
    · exact (fresh old' listed same' same).elim
    · have under := (grown.mem_of_listed listed).2
      rw [same] at under
      exact .inl (removed.revoked.once (grown.nodup_delegationsTo identified.left member)
        (fun turn going id dlg => length_proofsToRevoke_le going (fun self => (ahead.2 under self).trans id.symm) dlg)
        rev new other new' (same.trans same'.symm))
  · rcases removed.mem_delegation known with old | ⟨dependent, ⟨⟨id, listed⟩, -⟩, delegate⟩
    · exact own dlg old
    · rw [delegate]
      exact own dependent (grown.mem_of_listed listed).1

/-- What is listed after the call, of what is supported then. -/
theorem listed_iff (known : .delegation dlg ∈ ops ++ after.received)
    (support : SupportedIn (ops ++ after.received) group.state.id dlg) :
    dlg ∈ after.group.members.delegationsTo dlg.payload.delegate.id ↔ Unrevoked (ops ++ after.received) dlg :=
  Group.Grown.listed_iff_unrevoked removed.redelegated.going identified once known (removed.id.symm ▸ support)

omit removed in
theorem not_listed_of_dropped {proof : SignedDelegation T} (here : .delegation proof ∈ ops)
    (dropped : Dropped ops (Lasting ops signer group.state.id member) dlg proof) (id : Identifier) :
    proof ∉ group.members.delegationsTo id := by
  intro listed
  refine dropped.2.1 ((grown.listed_iff_unrevoked identified.left once.left here (.of_lasting dropped.1)).mp ?_)
  rwa [(grown.mem_of_listed listed).2]

theorem dropped {proof : SignedDelegation T} (here : .delegation proof ∈ ops)
    (dropped : Dropped ops (Lasting ops signer group.state.id member) dlg proof) :
    Dropped (ops ++ after.received) (SupportedIn (ops ++ after.received) group.state.id) dlg proof := by
  -- The call revokes only what is listed.
  have old {rev : SignedRevocation T} (known : .revocation rev ∈ ops ++ after.received)
      (revokes : rev.payload.revoke = proof) : .revocation rev ∈ ops := by
    rcases removed.mem_revocation known with old | ⟨-, listed⟩
    · exact old
    · exact absurd (revokes ▸ listed) (not_listed_of_dropped grown identified once here dropped _)
  exact ⟨removed.supported grown identified once here dropped.1, fun unrevoked => dropped.2.1 unrevoked.left,
    fun rev other known known' revokes revokes' =>
      dropped.2.2 rev other (old known revokes) (old known' revokes') revokes revokes'⟩

omit removed in
theorem not_listed_of_barred (here : .delegation dlg ∈ ops)
    (barred : Barred ops group.state.id (Lasting ops signer group.state.id member) dlg) (id : Identifier) :
    dlg ∉ group.members.delegationsTo id := by
  obtain ⟨order, rebuilt⟩ := grown.rebuilt
  rw [rebuilt]
  exact grown.not_listed_of_barred identified.left once.left order here (barred.mono fun _ => .of_lasting) id

/-- What is barred stays barred: those between the dropped links are no members, and are not let in anew. -/
theorem barred (here : .delegation dlg ∈ ops)
    (barred : Barred ops group.state.id (Lasting ops signer group.state.id member) dlg) :
    Barred (ops ++ after.received) group.state.id (SupportedIn (ops ++ after.received) group.state.id) dlg := by
  have proofKnown {dlg proof : SignedDelegation T} (here : .delegation dlg ∈ ops)
      (given : dlg.payload.proof = some proof) : .delegation proof ∈ ops :=
    grown.state.closed _ here _ (mem_afterAuth_of_proof given)
  have alone {issuer : Identifier} {above : SignedDelegation T} (unlisted : ∀ id, above ∉ group.members.delegationsTo id)
      (only : ∀ other, .delegation other ∈ ops → other.payload.delegate.id = issuer → other = above)
      (other : SignedDelegation T) (known : .delegation other ∈ ops ++ after.received)
      (delegated : other.payload.delegate.id = issuer) : other = above := by
    rcases removed.mem_delegation known with old | ⟨dependent, ⟨⟨id, listed⟩, -⟩, delegate⟩
    · exact only other old delegated
    · have same := only dependent (grown.mem_of_listed listed).1 (delegate ▸ delegated)
      exact absurd (same ▸ listed) (unlisted id)
  induction barred with
  | cut given given' drops gone notOwn only =>
    have known := proofKnown here given
    have known' := proofKnown known given'
    exact .cut given given' (removed.dropped grown identified once known drops)
      (removed.dropped grown identified once known' gone) notOwn
      (alone (not_listed_of_dropped grown identified once known' gone) only)
  | @under _ proof above given given' barred notOwn only ih =>
    have known := proofKnown here given
    have known' := proofKnown known given'
    refine .under given given' (ih known) notOwn (alone ?_ only)
    cases barred with
    | cut given'' _ drops =>
      obtain rfl := Option.some.inj (given'.symm.trans given'')
      exact not_listed_of_dropped grown identified once known' drops
    | under given'' _ barred =>
      obtain rfl := Option.some.inj (given'.symm.trans given'')
      exact not_listed_of_barred grown identified once known' barred

/-- **The member is gone**, if the delegations to them are settled without them. -/
theorem not_mem (settled : ∀ dlg, .delegation dlg ∈ ops → dlg.payload.delegate.id = member →
      Settled ops signer group.state.id member dlg) : member ∉ after.group.members := by
  rw [← Members.delegationsTo_eq_nil_iff, List.eq_nil_iff_forall_not_mem]
  intro dlg listed
  obtain ⟨known, under⟩ := Group.Grown.mem_of_listed removed.redelegated.going listed
  rcases removed.mem_delegation known with old | ⟨dependent, ⟨-, other, -⟩, delegate⟩
  · have lasts : Lasting ops signer group.state.id member dlg := by
      refine (settled dlg old under).resolve_right fun isBarred => ?_
      have barredAfter := removed.barred grown identified once old isBarred
      rw [← removed.id] at barredAfter
      obtain ⟨order, rebuilt⟩ := Group.Grown.rebuilt removed.redelegated.going
      rw [rebuilt] at listed
      exact Group.Grown.not_listed_of_barred removed.redelegated.going identified once order known barredAfter _ listed
    have unrevoked := (removed.listed_iff grown identified once known
      (removed.supported grown identified once old lasts)).mp
      (under.symm ▸ listed)
    have before := (grown.listed_iff_unrevoked identified.left once.left old (.of_lasting lasts)).mpr unrevoked.left
    obtain ⟨r, there, revokes⟩ := removed.revoked.all dlg (under ▸ before)
    refine unrevoked r ?_ revokes
    rw [removed.received]
    exact List.mem_append_right _ (List.mem_append_left _ (List.mem_map_of_mem there))
  · exact other (delegate ▸ under)

theorem stays {id : Identifier} (listed : dlg ∈ group.members.delegationsTo id)
    (other : id ≠ member) (lasting : Lasting ops signer group.state.id member dlg) :
    dlg ∈ after.group.members.delegationsTo id := by
  obtain ⟨known, under⟩ := grown.mem_of_listed listed
  have unrevoked := (grown.listed_iff_unrevoked identified.left once.left known (.of_lasting lasting)).mp
    (under.symm ▸ listed)
  have still := (removed.listed_iff grown identified once (List.mem_append_left _ known)
    (removed.supported grown identified once known lasting)).mpr
    (removed.unrevoked grown unrevoked (under.symm ▸ other))
  rwa [under] at still

/-- **Those whom the signer lets in anew are members**, if what the signer has lasts. -/
theorem delegated (own : signer.verifyingKey = group.state.id ∨ (signer.verifyingKey ≠ member ∧
      ∀ dlg, .delegation dlg ∈ ops → dlg.payload.delegate.id = signer.verifyingKey →
        Unrevoked ops dlg ∧ Lasting ops signer group.state.id member dlg))
    (fresh : ∀ new ∈ dlgs, .delegation new ∉ ops) :
    ∀ new ∈ dlgs, new ∈ after.group.members.delegationsTo new.payload.delegate.id := by
  -- Each is made under what the signer had before the call, or under an earlier one.
  have supported : ∀ first last, dlgs = first ++ last → ∀ new ∈ first,
      Unrevoked (ops ++ after.received) new ∧ SupportedIn (ops ++ after.received) group.state.id new := by
    intro first
    induction first using List.reverseRecOn with
    | nil => exact fun _ _ _ member => absurd member List.not_mem_nil
    | append_singleton first new ih =>
      intro last split other member
      rw [List.append_assoc, List.singleton_append] at split
      have earlier := ih (new :: last) split
      rcases List.mem_append.mp member with old | here
      · exact earlier other old
      · obtain rfl := List.mem_singleton.mp here
        have inDlgs : other ∈ dlgs := by
          rw [split]
          simp
        refine ⟨fun rev known same => ?_, ?_⟩
        · rcases removed.mem_revocation known with old | ⟨-, listed⟩
          · exact fresh other inDlgs (same ▸ grown.state.closed _ old _ (by simp [MembershipOperation.afterAuth]))
          · obtain ⟨dependent, ⟨-, notMember, -⟩, delegate⟩ := removed.others other inDlgs
            exact notMember (delegate ▸ same ▸ (grown.mem_of_listed listed).2)
        · rcases removed.redelegated.under first other last split with ⟨root, -⟩ | ⟨notOwn, proof, given, made, known⟩
          · exact .root root
          · rcases List.mem_append.mp known with before | new
            · rw [removed.revoked.revoked.received] at before
              have old : .delegation proof ∈ ops := by simpa [Call.start] using before
              obtain ⟨notSelf, lasting⟩ := own.resolve_left fun isOwn =>
                notOwn (removed.revoked.revoked.id.trans isOwn.symm)
              obtain ⟨unrevoked, lasts⟩ := lasting proof old made
              exact .under given (removed.unrevoked grown unrevoked (made.symm ▸ notSelf))
                (removed.supported grown identified once old lasts)
            · obtain ⟨unrevoked, support⟩ := earlier proof (by simpa using new)
              exact .under given unrevoked support
  intro new member
  obtain ⟨unrevoked, support⟩ := supported dlgs [] (by simp) new member
  refine (removed.listed_iff grown identified once ?_ support).mpr unrevoked
  rw [removed.received]
  exact List.mem_append_right _ (List.mem_append_right _ (List.mem_map_of_mem member))

end Removed

/-! ### Who can remove a member -/

/-- A proof that a revocation passes with. -/
def Passes (signer : Signer T) (id : Identifier) (toRevoke : SignedDelegation T) : Option (SignedDelegation T) → Prop
  | none => signer.verifyingKey = id
  | some proof => proof ∈ toRevoke :: toRevoke.proofLineage ∧ proof.Lineal

variable {toRevoke : SignedDelegation T}

theorem checkRevocation_of_passes {call : Call T} (going : Going hash ops call)
    (known : .delegation toRevoke ∈ ops ++ call.received) {proof : Option (SignedDelegation T)}
    (passes : Passes signer call.group.state.id toRevoke proof) (signature : Signature) :
    call.group.state.checkRevocation ⟨⟨toRevoke, proof, afterContent⟩, signer.verifyingKey, signature⟩ = .ok () := by
  have subject : toRevoke.subjectId = call.group.state.id :=
    GroupState.subjectId_of_check (going.state.checked _ known)
  cases proof with
  | none =>
    have own : signer.verifyingKey = call.group.state.id := passes
    simp [GroupState.checkRevocation, SignedRevocation.subjectId, subject, own, pure, Except.pure]
  | some proof =>
    obtain ⟨above, lineal⟩ := passes
    have proofKnown : .delegation proof ∈ ops ++ call.received := by
      rcases List.mem_cons.mp above with rfl | further
      · exact known
      · exact (MembershipOperation.reaches_of_mem_proofLineage further).mem going.state.closed known
    exact (checkRevocation_own_iff subject rfl above
      (GroupState.checkDelegation_ok_iff.mp (going.state.checked _ proofKnown))).mpr lineal

/-- The signer finds proofs for every delegation to the member, and they pass: the group's own key needs none, others
have issued a delegation above the member's; who removes themself acts under the only delegation that they have. -/
def FindsProofs (signer : Signer T) (group : Group T) (member : Identifier) : Prop :=
  signer.verifyingKey = group.state.id ∨
    (signer.verifyingKey ≠ member ∧ ∀ dlg ∈ group.members.delegationsTo member,
      ∃ proof, ownProof signer.verifyingKey dlg = some proof ∧ proof.Lineal) ∨
    (signer.verifyingKey = member ∧ ∃ dlg, group.members.delegationsTo member = [dlg] ∧ dlg.Lineal ∧
      ∀ proof, ownProof signer.verifyingKey dlg = some proof → proof.Lineal)

variable {admin : SignedDelegation T} {turn : Call T}

/-- The proofs that the signer finds when the turn of a delegation comes. -/
theorem FindsProofs.passes (finds : FindsProofs signer group member) (grown : Group.Grown hash ops group)
    (holds : admin ∈ group.members.delegationsTo signer.verifyingKey) (isAdmin : admin.payload.can = .admin)
    (going : Going hash ops turn) (id : turn.group.state.id = group.state.id)
    (listed : toRevoke ∈ group.members.delegationsTo member)
    (alone : group.members.delegationsTo member = [toRevoke] → turn.group = group) :
    proofsToRevoke signer member turn.group toRevoke ≠ [] ∧
      ∀ proof ∈ proofsToRevoke signer member turn.group toRevoke, Passes signer group.state.id toRevoke proof := by
  unfold proofsToRevoke
  rw [id]
  split
  · rename_i own
    refine ⟨by simp, fun proof member => ?_⟩
    rw [List.mem_singleton.mp member]
    exact own
  · rename_i other
    rcases finds.resolve_left other with ⟨notSelf, lineal⟩ | ⟨self, dlg, only, lineal, lineal'⟩
    · obtain ⟨proof, own, isLineal⟩ := lineal toRevoke listed
      rw [adminProofs_eq_nil going notSelf, own]
      refine ⟨by simp, fun proof' member => ?_⟩
      obtain rfl : proof' = some proof := by simpa using member
      exact ⟨(mem_of_ownProof own).1, isLineal⟩
    · obtain rfl : toRevoke = dlg := by simpa [only] using listed
      obtain rfl : admin = toRevoke := by simpa [self, only] using holds
      have proofs : adminProofs signer member turn.group = [admin] := by
        rw [adminProofs, alone only, self, only]
        exact List.filter_eq_self.mpr fun memDlg inList => by
          rw [List.mem_singleton.mp inList]
          exact decide_eq_true ⟨(grown.mem_of_listed listed).2, isAdmin⟩
      rw [proofs]
      refine ⟨by simp, fun proof inList => ?_⟩
      obtain ⟨proof, inProofs, rfl⟩ := List.mem_map.mp inList
      rcases List.mem_append.mp inProofs with first | own
      · rw [List.mem_singleton.mp first]
        exact ⟨List.mem_cons_self, lineal⟩
      · have found := Option.mem_toList.mp own
        exact ⟨(mem_of_ownProof found).1, lineal' proof found⟩

structure Signer.Signs (signer : Signer T) : Prop where
  delegation : ∀ asked payload, signer.signDelegation asked payload ≠ none
  revocation : ∀ asked payload, signer.signRevocation asked payload ≠ none

/-- **What it takes to remove a member:** proofs, delegations to the member that last without them or are barred, and if
the others are to stay, that the signer keeps their rights. -/
structure CanRemove (ops : List (MembershipOperation T)) (signer : Signer T) (group : Group T) (member : Identifier)
    (retain : Bool) (admin : SignedDelegation T) : Prop where
  proofs : FindsProofs signer group member
  settled : ∀ dlg, .delegation dlg ∈ ops → dlg.payload.delegate.id = member →
    Settled ops signer group.state.id member dlg
  rights : retain = true → (∃ dlg, IsDependent group member dlg) → signer.verifyingKey = group.state.id ∨
    (signer.verifyingKey ≠ member ∧ Lasting ops signer group.state.id member admin)

variable {e : RevokeMemberError}

theorem CanRemove.not_revokingFails {retain : Bool}
    (can : CanRemove ops signer group member retain admin) (signs : signer.Signs) (grown : Group.Grown hash ops group)
    (holds : admin ∈ group.members.delegationsTo signer.verifyingKey) (isAdmin : admin.payload.can = .admin) :
    ¬ RevokingFails hash ops signer afterContent member (.start group stores) e after revs turn mid toRevoke := by
  intro fails
  have known := fails.revoked.mem (Group.Grown.mem_of_listed (going_start grown stores) fails.listed).1
  obtain ⟨some, passes⟩ := can.proofs.passes grown holds isAdmin fails.turnGoing fails.turnId fails.listed
    fun alone => congrArg Call.group (fails.alone alone)
  rcases fails.fails with ⟨-, none⟩ | ⟨proof, found, why⟩
  · exact some none
  · cases e with
    | signingError => exact signs.revocation _ _ why
    | addError e =>
      obtain ⟨signature, -, turnedDown⟩ := why
      have same : mid.group.state.id = group.state.id := fails.revoked.id
      have passes := passes proof found
      rw [← same] at passes
      rw [checkRevocation_of_passes fails.revoked.going known passes] at turnedDown
      exact nomatch turnedDown
    | noProof => exact why
    | redelegationError e => exact why

variable {dlg : SignedDelegation T}

/-- Those who stay are delegated to anew without failure. -/
theorem CanRemove.not_retainingFails
    (can : CanRemove ops signer group member true admin) (signs : signer.Signs) (grown : Group.Grown hash ops group)
    (holds : admin ∈ group.members.delegationsTo signer.verifyingKey) (isAdmin : admin.payload.can = .admin)
    (identified : GroupState.Identified hash (ops ++ after.received))
    (once : GroupState.OncePerPayload (ops ++ after.received)) :
    ¬ RetainingFails hash ops signer afterContent member (.start group stores) e after revs dlgs mid turn dlg := by
  intro fails
  have removed : Removed hash ops signer afterContent member group stores revs dlgs mid turn :=
    ⟨fails.revoked, fails.redelegated, fails.others⟩
  rw [fails.unchanged.received] at identified once
  obtain ⟨e', -, why⟩ := fails.fails
  have enough (other : turn.group.state.id ≠ signer.verifyingKey) :
      ∃ best, turn.group.getCapability signer.verifyingKey = some best ∧ ¬ best.payload.can < dlg.payload.can := by
    obtain ⟨notSelf, lasting⟩ := (can.rights rfl ⟨dlg, fails.dependent⟩).resolve_left
      fun own => other (removed.id.trans own.symm)
    obtain ⟨best, found, more⟩ :=
      Group.le_getCapability (removed.stays grown identified once holds notSelf lasting)
    rw [isAdmin] at more
    exact ⟨best, found, ((Access.le_admin _).trans more).not_gt⟩
  cases e' with
  | signingError =>
    obtain ⟨payload, unsigned⟩ := why
    exact signs.delegation _ _ unsigned
  | noProof =>
    obtain ⟨other, none⟩ := why
    obtain ⟨best, found, -⟩ := enough other
    rw [none] at found
    exact nomatch found
  | accessEscalation wanted held =>
    obtain ⟨other, proof, found', less⟩ := why
    obtain ⟨best, found, fine⟩ := enough other
    rw [found'] at found
    exact fine (Option.some.inj found ▸ less)
  | addError e => exact why

/-- In every call that returns, who is not the group and does not remove themself has issued something above. -/
theorem ownProof_of_removed (removed : Removed hash ops signer afterContent member group stores revs dlgs mid after)
    (other : signer.verifyingKey ≠ group.state.id) (notSelf : signer.verifyingKey ≠ member)
    (listed : dlg ∈ group.members.delegationsTo member) :
    ∃ proof, ownProof signer.verifyingKey dlg = some proof ∧ proof.Lineal := by
  obtain ⟨r, there, rfl⟩ := removed.revoked.all dlg listed
  obtain ⟨turn, going, id, found⟩ := removed.revoked.proofs r there
  have notOwn : signer.verifyingKey ≠ turn.group.state.id := fun own => other (own.trans id)
  rw [proofsToRevoke, if_neg notOwn, adminProofs_eq_nil going notSelf] at found
  obtain ⟨proof, inProofs, given⟩ := List.mem_map.mp found
  have own : ownProof signer.verifyingKey r.payload.revoke = some proof := by simpa using inProofs
  refine ⟨proof, own, ?_⟩
  have known : .revocation r ∈ ops ++ mid.received := by
    rw [removed.revoked.revoked.received]
    exact List.mem_append_right _ (List.mem_append_right _ (List.mem_map_of_mem there))
  have state := removed.revoked.revoked.going.state
  have revokeKnown := state.closed _ known (.delegation r.payload.revoke) (by simp [MembershipOperation.afterAuth])
  have proofKnown := state.closed _ known (.delegation proof) (by simp [MembershipOperation.afterAuth, ← given])
  exact (checkRevocation_own_iff (GroupState.subjectId_of_check (state.checked _ revokeKnown)) given.symm
    (mem_of_ownProof own).1 (GroupState.checkDelegation_ok_iff.mp (state.checked _ proofKnown))).mp
    (state.checked _ known)

/-- **An administrator can remove a member where they find lineal proofs and the member's delegations last.** If the
call returns, then the signer is the group, or removes themself, or has found a lineal proof for every delegation to
the member. -/
theorem admin_removes (grown : Group.Grown hash ops group) {admin : SignedDelegation T}
    (holds : admin ∈ group.members.delegationsTo signer.verifyingKey) (isAdmin : admin.payload.can = .admin)
    (signs : signer.Signs) {retain : Bool} {result : EStateM.Result RevokeMemberError (Call T) (RevokeMemberUpdate T)}
    (ran : revokeMember hash walks signer afterContent member retain (.start group stores) = result)
    (identified : GroupState.Identified hash (ops ++ (final result).received))
    (once : GroupState.OncePerPayload (ops ++ (final result).received)) :
    (CanRemove ops signer group member retain admin →
      ∃ update after, result = .ok update after ∧ member ∉ after.group.members) ∧
    (∀ update after, result = .ok update after → signer.verifyingKey ≠ group.state.id →
      signer.verifyingKey ≠ member → ∀ dlg ∈ group.members.delegationsTo member,
        ∃ proof, ownProof signer.verifyingKey dlg = some proof ∧ proof.Lineal) := by
  have spec : After (revokeMember hash walks signer afterContent member retain (.start group stores)) _ _ :=
    revokeMember_spec (going_start grown stores)
  rw [ran] at spec
  cases result with
  | ok update after =>
    rcases spec with ⟨none, same⟩ | ⟨-, mid, done⟩
    · have none : group.members.delegationsTo member = [] := none
      refine ⟨fun _ => ⟨update, after, rfl, ?_⟩, fun _ _ _ _ _ dlg listed => ?_⟩
      · rw [same]
        intro present
        simp at present
      · rw [none] at listed
        exact absurd listed List.not_mem_nil
    · have removed : Removed hash ops signer afterContent member group stores update.revocations
          update.redelegations mid after := ⟨done.revoked, done.redelegated, done.others⟩
      exact ⟨fun can => ⟨update, after, rfl, removed.not_mem grown identified once can.settled⟩,
        fun _ _ _ other notSelf dlg listed => ownProof_of_removed removed other notSelf listed⟩
  | error e after =>
    refine ⟨fun can => ?_, fun _ _ never => nomatch never⟩
    rcases spec with ⟨revs, turn, mid, toRevoke, fails⟩ | ⟨retaining, revs, dlgs, mid, turn, dlg, fails⟩
    · exact (can.not_revokingFails signs grown holds isAdmin fails).elim
    · subst retaining
      exact (can.not_retainingFails signs grown holds isAdmin identified once fails).elim

/-! ### Who stays -/

/-- **Why someone stays:** their best delegation lasts, or the member has let them in and the signer, whose delegations
last, lets them in anew. -/
def Stays (ops : List (MembershipOperation T)) (signer : Signer T) (group : Group T) (member : Identifier)
    (best : SignedDelegation T) : Prop :=
  Lasting ops signer group.state.id member best ∨
    ((∃ proof, best.payload.proof = some proof ∧ proof.payload.delegate.id = member) ∧
      (signer.verifyingKey = group.state.id ∨ (signer.verifyingKey ≠ member ∧
        ∀ dlg, .delegation dlg ∈ ops → dlg.payload.delegate.id = signer.verifyingKey →
          Unrevoked ops dlg ∧ Lasting ops signer group.state.id member dlg)))

/-- **The others keep their access where their delegations last, or where the member has let them in directly.** The
member is gone where the delegations to them last or are barred. -/
theorem others_kept (grown : Group.Grown hash ops group) {update : RevokeMemberUpdate T}
    (ran : revokeMember hash walks signer afterContent member true (.start group stores) = .ok update after)
    (identified : GroupState.Identified hash (ops ++ after.received))
    (once : GroupState.OncePerPayload (ops ++ after.received)) :
    ((∀ dlg, .delegation dlg ∈ ops → dlg.payload.delegate.id = member →
      Settled ops signer group.state.id member dlg) → member ∉ after.group.members) ∧
    ((∀ new, .delegation new ∈ after.received → .delegation new ∉ ops) →
      ∀ id best, id ≠ member → group.getCapability id = some best → Stays ops signer group member best →
        ∃ best', after.group.getCapability id = some best' ∧ best.payload.can ≤ best'.payload.can) := by
  have spec : After (revokeMember hash walks signer afterContent member true (.start group stores)) _ _ :=
    revokeMember_spec (going_start grown stores)
  rw [ran] at spec
  rcases spec with ⟨none, same⟩ | ⟨-, mid, done⟩
  · rw [same]
    refine ⟨fun _ present => ?_, fun _ id best other found _ => ⟨best, ?_, le_rfl⟩⟩
    · simp at present
    · have kept : (group.members.erase member)[id]? = group.members[id]? := by
        rw [ExtTreeMap.getElem?_erase, if_neg fun same => other (LawfulEqCmp.compare_eq_iff_eq.mp same).symm]
      rw [← found]
      exact Group.getCapability_congr kept
  · have removed : Removed hash ops signer afterContent member group stores update.revocations
        update.redelegations mid after := ⟨done.revoked, done.redelegated, done.others⟩
    refine ⟨removed.not_mem grown identified once, fun fresh id best other found stay => ?_⟩
    have listed := Group.mem_of_getCapability found
    rcases stay with lasts | ⟨⟨proof, given, made⟩, own⟩
    · exact Group.le_getCapability (removed.stays grown identified once listed other lasts)
    · have under := (grown.mem_of_listed listed).2
      obtain ⟨new, inList, delegate, can⟩ := done.retained rfl best
        ⟨⟨id, listed⟩, under.symm ▸ other, proof, given, made⟩
      have new' := removed.delegated grown identified once own
        (fun new member => fresh new (by
          rw [removed.received]
          exact List.mem_append_right _ (List.mem_map_of_mem member))) new inList
      rw [delegate, under] at new'
      rw [← can]
      exact Group.le_getCapability new'

end Call

end

namespace Sample

open GroupState

/-- Digests, signatures and payloads tell the operations apart. -/
def toldApart (ops : List (MembershipOperation Unit)) : Bool :=
  decide ((ops.map hash).Nodup ∧ (ops.map MembershipOperation.signature).Nodup ∧
    ∀ first ∈ ops, ∀ second ∈ ops, samePayload first second = true → first.signature = second.signature)

theorem identified_of_toldApart {ops : List (MembershipOperation Unit)} (told : toldApart ops = true) :
    Identified hash ops ∧ OncePerPayload ops := by
  obtain ⟨digests, signatures, payloads⟩ := of_decide_eq_true told
  have identified := identified_of_nodup digests signatures
  exact ⟨identified, oncePerPayload_of_signatures identified payloads⟩

theorem returned_of_ending {result : EStateM.Result RevokeMemberError (Call Unit) (RevokeMemberUpdate Unit)}
    {shown : List (Nat × List Nat) × List Nat} (ends : ending result = (none, shown)) :
    ∃ update after, result = .ok update after := by
  cases result with
  | ok update after => exact ⟨update, after, rfl⟩
  | error e after => simp [ending] at ends

theorem signer_signs (number : Nat) : (signer number).Signs := ⟨fun _ _ => by simp [signer], fun _ _ => by simp [signer]⟩

/-- 1 has let the editor in, and removes them. -/
theorem editor_removed :
    ∃ group update after, run .sorted admin [.delegation editor] = .ok group ∧
      removal 1 2 false group = .ok update after ∧ principal 2 ∉ after.group.members := by
  obtain ⟨group, ran, shown⟩ := group_of_view (by decide +kernel :
    (run .sorted admin [.delegation editor]).map (fun group => (lists admin (principal 1) group,
      toldApart ([.delegation admin, .delegation editor] ++ (final (removal 1 2 false group)).received)))
      = .ok (true, true))
  obtain ⟨shown, told⟩ := Prod.mk.inj shown
  have grown := grown_of_run (by simp [InOrder, MembershipOperation.afterAuth, editor, admin, delegation]) ran
  obtain ⟨identified, once⟩ := identified_of_toldApart told
  have holds := listed_of_stamp grown identified.left (by simp) shown
  have isEditor {dlg : SignedDelegation Unit}
      (known : .delegation dlg ∈ [MembershipOperation.delegation admin, .delegation editor])
      (under : dlg.payload.delegate.id = principal 2) : dlg = editor := by
    simp only [List.mem_cons, MembershipOperation.delegation.injEq, List.not_mem_nil, or_false] at known
    rcases known with rfl | rfl
    · exact absurd under (by decide +kernel)
    · rfl
  have unrevoked (dlg : SignedDelegation Unit) :
      Unrevoked [MembershipOperation.delegation admin, .delegation editor] dlg := by simp [Unrevoked]
  obtain ⟨update, after, removed, gone⟩ := (admin_removes grown holds rfl (signer_signs 1) rfl identified once).1 {
    proofs := .inr (.inl ⟨by decide +kernel, fun dlg listed => by
      obtain ⟨known, under⟩ := grown.mem_of_listed listed
      rw [isEditor known under]
      exact ⟨editor, ownProof_of_issued rfl, by decide +kernel⟩⟩)
    settled := fun dlg known under => by
      rw [isEditor known under]
      exact .inl <| .under rfl ⟨unrevoked admin, by decide +kernel⟩ (.root rfl)
    rights := fun never => absurd never (by simp) }
  exact ⟨group, update, after, ran, removed, gone⟩

/-- **An administrator cannot remove a member.** The group's own key has made 6 an administrator; 1 has let the editor
in, so 6 has no proof. -/
theorem admin_has_no_proof :
    ∃ (ops : List (MembershipOperation Unit)) (group : Group Unit) (after : Call Unit), Group.Grown hash ops group ∧
      coadmin ∈ group.members.delegationsTo (signer 6).verifyingKey ∧ coadmin.payload.can = .admin ∧
      principal 2 ∈ group.members ∧ removal 6 2 false group = .error .noProof after ∧
      principal 2 ∈ after.group.members := by
  obtain ⟨group, ran, shown⟩ := group_of_view (by decide +kernel :
    (run .sorted admin [.delegation editor, .delegation coadmin]).map (fun group => ending (removal 6 2 false group))
      = .ok (some .noProof, ([(1, [10]), (2, [11]), (6, [15])], [])))
  obtain ⟨after, failed, -⟩ := failed_of_ending shown
  have listed := view_of_run ran (by decide +kernel :
    (run .sorted admin [.delegation editor, .delegation coadmin]).map (lists coadmin (principal 6)) = .ok true)
  have before := view_of_run ran (by decide +kernel :
    (run .sorted admin [.delegation editor, .delegation coadmin]).map
      (fun group => group.members.contains (principal 2)) = .ok true)
  have still := view_of_run ran (by decide +kernel :
    (run .sorted admin [.delegation editor, .delegation coadmin]).map
      (fun group => (final (removal 6 2 false group)).group.members.contains (principal 2)) = .ok true)
  rw [failed] at still
  have inOrder : InOrder [.delegation admin] [.delegation editor, .delegation coadmin] := by
    simp [InOrder, MembershipOperation.afterAuth, editor, coadmin, admin, delegation]
  have grown := grown_of_run inOrder ran
  have identified : Identified hash [.delegation admin, .delegation editor, .delegation coadmin] :=
    identified_of_nodup (by decide +kernel) (by decide +kernel)
  exact ⟨_, group, after, grown, listed_of_stamp grown identified (by simp) listed, rfl,
    ExtTreeMap.contains_iff_mem.mp before, failed, ExtTreeMap.contains_iff_mem.mp still⟩

def lineage : List (MembershipOperation Unit) := [.delegation admin, .delegation editor, .delegation subeditor]

/-- 2 has let 3 in. 1 removes 2, and 3 is let in anew. -/
theorem subeditor_kept :
    ∃ group update after, run .sorted admin [.delegation editor, .delegation subeditor] = .ok group ∧
      removal 1 2 true group = .ok update after ∧ principal 2 ∉ after.group.members ∧
      ∀ id best, id ≠ principal 2 → group.getCapability id = some best →
        ∃ best', after.group.getCapability id = some best' ∧ best.payload.can ≤ best'.payload.can := by
  obtain ⟨group, ran, shown⟩ := group_of_view (by decide +kernel :
    (run .sorted admin [.delegation editor, .delegation subeditor]).map (fun group => ending (removal 1 2 true group))
      = .ok (none, ([(1, [10]), (3, [101, 12])], [100])))
  have told := view_of_run ran (by decide +kernel :
    (run .sorted admin [.delegation editor, .delegation subeditor]).map (fun group =>
      toldApart (lineage ++ (final (removal 1 2 true group)).received)) = .ok true)
  obtain ⟨update, after, removed⟩ := returned_of_ending shown
  rw [removed] at told
  have inOrder : InOrder [.delegation admin] [.delegation editor, .delegation subeditor] := by
    simp [InOrder, MembershipOperation.afterAuth, editor, subeditor, admin, delegation]
  have grown : Group.Grown hash lineage group := grown_of_run inOrder ran
  obtain ⟨identified, once⟩ := identified_of_toldApart told
  have unrevoked (dlg : SignedDelegation Unit) : Unrevoked lineage dlg := by simp [Unrevoked, lineage]
  -- Both 2 and 3 depend on 1, who stays.
  have lasting {dlg : SignedDelegation Unit} (known : .delegation dlg ∈ lineage) :
      Lasting lineage (signer 1) group.state.id (principal 2) dlg := by
    simp only [lineage, List.mem_cons, MembershipOperation.delegation.injEq, List.not_mem_nil, or_false] at known
    rcases known with rfl | rfl | rfl
    · exact .root rfl
    · exact .under rfl ⟨unrevoked admin, by decide +kernel⟩ (.root rfl)
    · refine .past rfl ⟨?_, fun _ self => absurd self (by decide +kernel)⟩ rfl ⟨unrevoked admin, by decide +kernel⟩
        (.root rfl)
      simp [Ahead, lineage]
  have fresh : ∀ new, .delegation new ∈ after.received → .delegation new ∉ lineage := by
    intro new received known
    have distinct := (of_decide_eq_true told).1
    rw [List.map_append, List.nodup_append] at distinct
    exact distinct.2.2 _ (List.mem_map_of_mem known) _ (List.mem_map_of_mem received) rfl
  obtain ⟨gone, kept⟩ := others_kept grown removed identified once
  exact ⟨group, update, after, ran, removed, gone fun dlg known _ => .inl (lasting known), fun id best other found =>
    kept fresh id best other found (.inl (lasting (grown.mem_of_listed (Group.mem_of_getCapability found)).1))⟩

def trainee : SignedDelegation Unit := delegation 17 4 6 .edit (some assistant)

/-- 2 is taken back, and what 2 and those after them have delegated is still listed. -/
def withoutEditor : List (MembershipOperation Unit) :=
  [.delegation editor, .delegation subeditor, .delegation assistant, .delegation trainee, revokeEditor]

/-- **A member is lost with another who was to be removed alone.** 2, who let 3 in, is gone already. When 3 goes, 4,
whom 3 has let in, is let in anew by 1; 6, whom 4 has let in, is not, and loses what they had. -/
theorem trainee_lost :
    ∃ (ops : List (MembershipOperation Unit)) (group : Group Unit) (update : RevokeMemberUpdate Unit)
      (after : Call Unit), Group.Grown hash ops group ∧ removal 1 3 true group = .ok update after ∧
      principal 6 ≠ principal 3 ∧ principal 6 ∈ group.members ∧ principal 6 ∉ after.group.members := by
  obtain ⟨group, ran, shown⟩ := group_of_view (by decide +kernel :
    (run .sorted admin withoutEditor).map (fun group => ending (removal 1 3 true group))
      = .ok (none, ([(1, [10]), (4, [101])], [21, 100])))
  obtain ⟨update, after, removed⟩ := returned_of_ending shown
  have before := view_of_run ran (by decide +kernel :
    (run .sorted admin withoutEditor).map (fun group => group.members.contains (principal 6)) = .ok true)
  have lost := view_of_run ran (by decide +kernel :
    (run .sorted admin withoutEditor).map
      (fun group => (final (removal 1 3 true group)).group.members.contains (principal 6)) = .ok false)
  rw [removed] at lost
  have inOrder : InOrder [.delegation admin] withoutEditor := by
    simp [withoutEditor, InOrder, MembershipOperation.afterAuth, editor, subeditor, assistant, trainee, admin,
      delegation, revokeEditor, revocation]
  refine ⟨_, group, update, after, grown_of_run inOrder ran, removed, by decide +kernel,
    ExtTreeMap.contains_iff_mem.mp before, fun present => ?_⟩
  exact Bool.noConfusion ((ExtTreeMap.contains_iff_mem.mpr present).symm.trans lost)

end Sample

end KeyhiveEval.Core
