/-
**Revocations that are turned down, and calls that fail.**

* `checkRevocationLineage_ok_iff` — the fold over the proofs above the proof of a revocation compares each of them with
  that proof, and not with the one before it.
* **`built_revocation_accepted_iff`** — so what `revoke_member` builds is accepted exactly if every delegation above
  the proof is made out to the issuer of the proof. With two or more of them that is hardly ever so.
* **`failed_call_unchanged`** — a call that fails has changed nothing if its first revocation is refused; it has
  changed something if any was received before.
-/

import KeyhiveEval.Core.GroupSample
import KeyhiveEval.Core.RevokeSteps

set_option linter.unusedSectionVars false

namespace KeyhiveEval.Core

open Std Beekem Stateful OrderedSets

section

variable {T : Type} [DecidableEq T] {hash : MembershipOperation T → MembershipDigest} {walks : CallOrder T}
  {signer : Signer T} {afterContent : ExtTreeMap Identifier (List T)} {ops : List (MembershipOperation T)}

/-! ### Revocations -/

/-- Every delegation above is made out to the issuer. -/
def SignedDelegation.Lineal (proof : SignedDelegation T) : Prop :=
  ∀ above ∈ proof.proofLineage, above.payload.delegate.id = proof.issuer

instance (proof : SignedDelegation T) : Decidable proof.Lineal :=
  inferInstanceAs (Decidable (∀ above ∈ proof.proofLineage, above.payload.delegate.id = proof.issuer))

variable {proof : SignedDelegation T}

theorem checkRevocationLineage_ok_iff {lineage : List (SignedDelegation T)} :
    GroupState.checkRevocationLineage proof lineage = .ok () ↔
      ∀ above ∈ lineage, proof.payload.can ≤ above.payload.can ∧ above.payload.delegate.id = proof.issuer := by
  induction lineage with
  | nil => simp [GroupState.checkRevocationLineage, pure, Except.pure]
  | cons above rest ih =>
    rw [GroupState.checkRevocationLineage, List.forall_mem_cons]
    by_cases less : above.payload.can < proof.payload.can
    · rw [if_pos less]
      exact iff_of_false (by simp [throw, throwThe, MonadExceptOf.throw]) fun holds => absurd less holds.1.1.not_gt
    · by_cases other : proof.issuer = above.payload.delegate.id
      · rw [if_neg less, if_neg (not_not.mpr other), ih]
        exact ⟨fun rest => ⟨⟨le_of_not_gt less, other.symm⟩, rest⟩, And.right⟩
      · rw [if_neg less, if_pos other]
        exact iff_of_false (by simp [throw, throwThe, MonadExceptOf.throw]) fun holds => other holds.1.2.symm

variable {state : GroupState T} {rev : SignedRevocation T}

/-- The checks of a revocation whose proof is what it revokes, or stands above it. -/
theorem checkRevocation_own_iff
    (subject : rev.payload.revoke.subjectId = state.id) (given : rev.payload.proof = some proof)
    (above : proof ∈ rev.payload.revoke :: rev.payload.revoke.proofLineage) (accepted : state.ChainOfAuthority proof) :
    state.checkRevocation rev = .ok () ↔ proof.Lineal := by
  have related : (!rev.payload.revoke.same proof && !rev.payload.revoke.isDescendantOf proof) = false := by
    rcases List.mem_cons.mp above with rfl | further
    · simp [SignedDelegation.same]
    · have descends : rev.payload.revoke.isDescendantOf proof = true :=
        List.any_eq_true.mpr ⟨proof, further, by simp [SignedDelegation.same]⟩
      simp [descends]
  have lineage : state.checkRevocation rev = GroupState.checkRevocationLineage proof proof.proofLineage := by
    rw [GroupState.checkRevocation, given]
    simp only [SignedRevocation.subjectId, subject, ne_eq, not_true_eq_false, if_false, related, Bool.false_eq_true]
  rw [lineage, checkRevocationLineage_ok_iff]
  exact ⟨fun holds link member => (holds link member).2, fun lineal link member => ⟨accepted.access link member,
    lineal link member⟩⟩

variable {stores : Stores T}

theorem addRevocation_ok_iff :
    (∃ result, state.addRevocation hash stores rev = .ok result) ↔ state.checkRevocation rev = .ok () := by
  unfold GroupState.addRevocation
  cases checked : state.checkRevocation rev with
  | ok _ => exact iff_of_true ⟨_, rfl⟩ rfl
  | error e => exact iff_of_false (by rintro ⟨result, never⟩; simp [bind, Except.bind] at never) (by simp)

/-- In a group that has a delegation, its own revocations are accepted exactly by lineal proofs. -/
theorem GroupState.Grown.addRevocation_iff
    {admits : List (MembershipOperation T) → GroupState T → MembershipOperation T → Prop}
    (grown : GroupState.Grown hash admits ops state) (has : .delegation rev.payload.revoke ∈ ops)
    (given : rev.payload.proof = some proof)
    (above : proof ∈ rev.payload.revoke :: rev.payload.revoke.proofLineage) :
    (∃ result, state.addRevocation hash stores rev = .ok result) ↔ proof.Lineal := by
  have known : .delegation proof ∈ ops := by
    rcases List.mem_cons.mp above with rfl | further
    · exact has
    · exact (MembershipOperation.reaches_of_mem_proofLineage further).mem grown.closed has
  rw [addRevocation_ok_iff]
  exact checkRevocation_own_iff (subjectId_of_check (grown.checked _ has)) given above
    (checkDelegation_ok_iff.mp (grown.checked _ known))

/-- **What `revoke_member` builds is accepted exactly if the proof is lineal**, by the group and by every peer that has
the delegation. -/
theorem built_revocation_accepted_iff {group : Group T} (grown : Group.Grown hash ops group) {member : Identifier}
    {dlg proof : SignedDelegation T} (listed : dlg ∈ group.members.delegationsTo member)
    (own : ownProof signer.verifyingKey dlg = some proof) {call call' : Call T} {rev : SignedRevocation T}
    (built : buildRevocation signer afterContent dlg (some proof) call = .ok rev call')
    {admits : List (MembershipOperation T) → GroupState T → MembershipOperation T → Prop}
    {theirs : List (MembershipOperation T)} {peer : GroupState T}
    (peerGrown : GroupState.Grown hash admits theirs peer) (has : .delegation dlg ∈ theirs) (stores stores' : Stores T) :
    ((∃ result, group.state.addRevocation hash stores rev = .ok result) ∧
      ∃ result, peer.addRevocation hash stores' rev = .ok result) ↔ proof.Lineal := by
  obtain ⟨revokes, given⟩ : rev.payload.revoke = dlg ∧ rev.payload.proof = some proof := by
    unfold buildRevocation at built
    split at built
    · obtain ⟨rfl, -⟩ := EStateM.Result.ok.inj built
      exact ⟨rfl, rfl⟩
    · simp at built
  subst revokes
  have above := (mem_of_ownProof own).1
  rw [grown.state.addRevocation_iff (grown.mem_of_listed listed).1 given above,
    peerGrown.addRevocation_iff has given above, and_self]

theorem ownProof_of_issued {vk : Identifier} {dlg : SignedDelegation T} (issued : dlg.issuer = vk) :
    ownProof vk dlg = some dlg := if_pos issued

/-! ### Calls that fail -/

/-- The group is as it was, in its members, its revocations in effect and its heads. -/
structure SameGroup (before after : Group T) : Prop where
  members : after.members = before.members
  activeRevocations : after.activeRevocations = before.activeRevocations
  delegationHeads : after.state.delegationHeads = before.state.delegationHeads
  revocationHeads : after.state.revocationHeads = before.state.revocationHeads

theorem SameGroup.finds_iff {before after : Group T} (same : SameGroup before after) (op : MembershipOperation T) :
    after.state.Finds op ↔ before.state.Finds op := by
  have isHead (head : MembershipOperation T) : after.state.IsHead head ↔ before.state.IsHead head := by
    cases head with
    | delegation dlg => rw [GroupState.IsHead, GroupState.IsHead, same.delegationHeads]
    | revocation rev => rw [GroupState.IsHead, GroupState.IsHead, same.revocationHeads]
  simp only [GroupState.Finds, isHead]

theorem not_sameGroup_of_received {before : Group T} (grown : Group.Grown hash ops before) {after : Call T}
    (going : Going hash ops after) (identified : GroupState.Identified hash (ops ++ after.received))
    (once : GroupState.OncePerPayload (ops ++ after.received)) {op : MembershipOperation T}
    (received : op ∈ after.received) (new : op ∉ ops) : ¬ SameGroup before after.group := by
  intro same
  have found := (going.state.sound identified once).finds op (List.mem_append_right _ received)
  obtain ⟨head, isHead, above⟩ := (same.finds_iff op).mp found
  exact new (above.mem grown.state.closed (grown.state.within head isHead))

/-- **A failed call has changed nothing exactly if its first revocation was refused.** That it then has changed
nothing is so without any assumption; that it otherwise has changed something is so if the operations of the call are
new, and told apart from those of the group. -/
theorem failed_call_unchanged {group : Group T} (grown : Group.Grown hash ops group) {stores : Stores T}
    {member : Identifier} {retain : Bool} {e : RevokeMemberError} {after : Call T}
    (failed : revokeMember hash walks signer afterContent member retain (.start group stores) = .error e after) :
    ∃ dlg, (group.members.delegationsTo member).head? = some dlg ∧
      (Refused signer afterContent member (.start group stores) dlg → SameGroup group after.group) ∧
      (GroupState.Identified hash (ops ++ after.received) → GroupState.OncePerPayload (ops ++ after.received) →
        (∀ op ∈ after.received, op ∉ ops) → SameGroup group after.group →
        Refused signer afterContent member (.start group stores) dlg) := by
  have start : Going hash ops (Call.start group stores) := by
    unfold Going
    rwa [Call.start, List.append_nil]
  have spec : After (revokeMember hash walks signer afterContent member retain (.start group stores)) _ _ :=
    revokeMember_spec start
  rw [failed] at spec
  rcases spec with ⟨revs, turn, mid, toRevoke, fails⟩ | ⟨-, revs, dlgs, mid, turn, dlg, fails⟩
  · obtain ⟨dlg, head, refused⟩ := fails.first
    refine ⟨dlg, head, fun isRefused => ?_, fun identified once new same => ?_⟩
    · have unchanged : after.group = group := by
        rw [fails.unchanged.group, fails.revoked.nothing (refused.mpr isRefused)]
        rfl
      rw [unchanged]
      exact ⟨rfl, rfl, rfl, rfl⟩
    · rw [← refused]
      by_contra some
      obtain ⟨r, there⟩ := List.exists_mem_of_ne_nil revs some
      have received : .revocation r ∈ after.received := by
        rw [fails.unchanged.received, fails.revoked.received]
        exact List.mem_append_right _ (List.mem_map_of_mem there)
      have going : Going hash ops after := by
        unfold Going
        rw [fails.unchanged.group, fails.unchanged.received]
        exact fails.revoked.going
      exact not_sameGroup_of_received grown going identified once received (new _ received) same
  · -- All the revocations were received before the first delegation failed.
    have nonempty : group.members.delegationsTo member ≠ [] := fails.some
    obtain ⟨dlg, head⟩ : ∃ dlg, (group.members.delegationsTo member).head? = some dlg := by
      cases list : group.members.delegationsTo member with
      | nil => exact absurd list nonempty
      | cons dlg rest => exact ⟨dlg, rfl⟩
    refine ⟨dlg, head, fun isRefused => absurd isRefused (fails.revoked.first dlg head),
      fun identified once new same => ?_⟩
    obtain ⟨r, there, -⟩ := fails.revoked.all dlg (List.mem_of_mem_head? head)
    have received : .revocation r ∈ after.received := by
      rw [fails.unchanged.received, fails.redelegated.received, fails.revoked.revoked.received]
      exact List.mem_append_left _ (List.mem_append_right _ (List.mem_map_of_mem there))
    have going : Going hash ops after := by
      unfold Going
      rw [fails.unchanged.group, fails.unchanged.received]
      exact fails.redelegated.going
    exact absurd same (not_sameGroup_of_received grown going identified once received (new _ received))

end

namespace Sample

open GroupState

variable {ops : List (MembershipOperation Unit)} {group : Group Unit}

theorem view_of_run {α : Type} {view : Group Unit → α} {order : HashOrder Unit} {shown : α}
    (ran : run order admin ops = .ok group)
    (views : (run order admin ops).map view = .ok shown) : view group = shown := by
  rw [ran] at views
  exact Except.ok.inj views

def signer (number : Nat) : Signer Unit :=
  ⟨principal number, fun asked _ => some (signature (100 + asked)), fun asked _ => some (signature (100 + asked))⟩

/-- All tables are walked in the order of their keys. -/
def walks : CallOrder Unit := ⟨fun _ => .sorted, id, List.Perm.refl⟩

/-- A call by one principal to remove another from the group after some operations. -/
def removal (remover removed : Nat) (retain : Bool) (group : Group Unit) :
    EStateM.Result RevokeMemberError (Call Unit) (RevokeMemberUpdate Unit) :=
  revokeMember hash walks (signer remover) ∅ (principal removed) retain (.start group ⟨∅, ∅⟩)

/-- The revocation that a principal builds for a delegation that they have issued. -/
def ownRevocation (remover : Nat) (dlg : SignedDelegation Unit) : SignedRevocation Unit :=
  ⟨⟨dlg, some dlg, ∅⟩, principal remover, signature 100⟩

theorem built_ownRevocation (remover : Nat) (dlg : SignedDelegation Unit) (group : Group Unit) :
    buildRevocation (signer remover) ∅ dlg (some dlg) (.start group ⟨∅, ∅⟩)
      = .ok (ownRevocation remover dlg) { Call.start group ⟨∅, ∅⟩ with asked := 1 } := rfl

/-- Is the delegation listed, as far as its issuer and its signature tell? -/
def lists (dlg : SignedDelegation Unit) (id : Identifier) (group : Group Unit) : Bool :=
  decide (dlg.stamp ∈ (group.members.delegationsTo id).map SignedDelegation.stamp)

theorem listed_of_stamp (grown : Group.Grown hash ops group)
    (identified : Identified hash ops) {id : Identifier} {dlg : SignedDelegation Unit} (known : .delegation dlg ∈ ops)
    (shown : lists dlg id group = true) :
    dlg ∈ group.members.delegationsTo id := by
  obtain ⟨other, listed, stamp⟩ := List.mem_map.mp (of_decide_eq_true shown)
  have same := identified.signature _ (grown.mem_of_listed listed).1 _ known (congrArg Prod.snd stamp)
  rwa [← MembershipOperation.delegation.inj same]

theorem id_of_grown (grown : Group.Grown hash ops group)
    (known : .delegation admin ∈ ops) : group.state.id = principal 0 :=
  (subjectId_of_check (grown.state.checked _ known)).symm

/-- The editor was let in by someone whom the group's key has let in: they can be revoked. -/
theorem editor_revoked_by_issuer :
    ∃ group, run .sorted admin [.delegation editor] = .ok group ∧
      ∃ result, group.state.addRevocation hash ⟨∅, ∅⟩ (ownRevocation 1 editor) = .ok result := by
  obtain ⟨group, ran, shown⟩ := group_of_view (by decide +kernel : (run .sorted admin [.delegation editor]).map
    (lists editor (principal 2)) = .ok true)
  have grown := grown_of_run (by simp [InOrder, MembershipOperation.afterAuth, editor, admin, delegation]) ran
  have identified : Identified hash [.delegation admin, .delegation editor] :=
    identified_of_nodup (by decide +kernel) (by decide +kernel)
  have listed := listed_of_stamp grown identified (by simp) shown
  refine ⟨group, ran, ((built_revocation_accepted_iff grown listed (ownProof_of_issued rfl)
    (built_ownRevocation 1 editor group) grown.state (grown.mem_of_listed listed).1 _ ⟨∅, ∅⟩).mpr ?_).1⟩
  decide +kernel

/-- **A revocation that is turned down.** 2 has let 3 in and revokes that. The delegation to 2 stands above, made out to
2; above that stands the delegation to 1, which should be made out to 2 as well. -/
theorem own_revocation_turned_down :
    ∃ (ops : List (MembershipOperation Unit)) (group : Group Unit), Group.Grown hash ops group ∧
      subeditor ∈ group.members.delegationsTo (principal 3) ∧
      ownProof (signer 2).verifyingKey subeditor = some subeditor ∧
      buildRevocation (signer 2) ∅ subeditor (some subeditor) (.start group ⟨∅, ∅⟩)
        = .ok (ownRevocation 2 subeditor) { Call.start group ⟨∅, ∅⟩ with asked := 1 } ∧
      ¬ ∃ result, group.state.addRevocation hash ⟨∅, ∅⟩ (ownRevocation 2 subeditor) = .ok result := by
  obtain ⟨group, ran, shown⟩ := group_of_view (by decide +kernel :
    (run .sorted admin [.delegation editor, .delegation subeditor]).map (lists subeditor (principal 3)) = .ok true)
  have inOrder : InOrder [.delegation admin] [.delegation editor, .delegation subeditor] := by
    simp [InOrder, MembershipOperation.afterAuth, editor, subeditor, admin, delegation]
  have grown := grown_of_run inOrder ran
  have identified : Identified hash [.delegation admin, .delegation editor, .delegation subeditor] :=
    identified_of_nodup (by decide +kernel) (by decide +kernel)
  have listed := listed_of_stamp grown identified (by simp) shown
  refine ⟨_, group, grown, listed, ownProof_of_issued rfl, built_ownRevocation 2 subeditor group, ?_⟩
  have given : (ownRevocation 2 subeditor).payload.proof = some subeditor := rfl
  rw [grown.state.addRevocation_iff (grown.mem_of_listed listed).1 given List.mem_cons_self]
  decide +kernel

/-- The group's own key lets 6 administer the group. -/
def coadmin : SignedDelegation Unit := delegation 15 0 6 .admin none

def editorAgain : SignedDelegation Unit := delegation 16 6 2 .edit (some coadmin)

/-- How a call ends: with which error, and with which members and revocations in effect. -/
def ending : EStateM.Result RevokeMemberError (Call Unit) (RevokeMemberUpdate Unit) →
    Option RevokeMemberError × (List (Nat × List Nat) × List Nat)
  | .ok _ after => (none, summary after.group)
  | .error e after => (some e, summary after.group)

theorem failed_of_ending {result : EStateM.Result RevokeMemberError (Call Unit) (RevokeMemberUpdate Unit)}
    {e : RevokeMemberError} {shown : List (Nat × List Nat) × List Nat} (ends : ending result = (some e, shown)) :
    ∃ after, result = .error e after ∧ summary after.group = shown := by
  cases result with
  | ok update after => simp [ending] at ends
  | error e' after =>
    obtain ⟨same, shown⟩ := Prod.mk.inj ends
    exact ⟨after, by rw [Option.some.inj same], shown⟩

/-- 6 has no part in the editor's delegation; the call fails at once and the group is as it was. -/
theorem refused_call_changes_nothing :
    ∃ group after, run .sorted admin [.delegation editor, .delegation coadmin] = .ok group ∧
      removal 6 2 false group = .error .noProof after ∧ SameGroup group after.group := by
  obtain ⟨group, ran, shown⟩ := group_of_view (by decide +kernel :
    (run .sorted admin [.delegation editor, .delegation coadmin]).map (fun group => ending (removal 6 2 false group))
      = .ok (some .noProof, ([(1, [10]), (2, [11]), (6, [15])], [])))
  obtain ⟨after, failed, -⟩ := failed_of_ending shown
  have inOrder : InOrder [.delegation admin] [.delegation editor, .delegation coadmin] := by
    simp [InOrder, MembershipOperation.afterAuth, editor, coadmin, admin, delegation]
  have grown := grown_of_run inOrder ran
  obtain ⟨dlg, head, unchanged, -⟩ := failed_call_unchanged grown failed
  refine ⟨group, after, ran, failed, unchanged ?_⟩
  obtain ⟨known, under⟩ := grown.mem_of_listed (List.mem_of_mem_head? head)
  have isEditor : dlg = editor := by
    simp only [List.mem_cons, MembershipOperation.delegation.injEq, List.not_mem_nil, or_false] at known
    rcases known with rfl | rfl | rfl
    · exact absurd under (by decide +kernel)
    · rfl
    · exact absurd under (by decide +kernel)
  have noAdmin : adminProofs (signer 6) (principal 2) group = [] := by
    refine List.filter_eq_nil_iff.mpr fun memDlg listed both => ?_
    have here := (of_decide_eq_true both).1
    rw [(grown.mem_of_listed listed).2] at here
    exact absurd here (by decide +kernel)
  have noProof : proofsToRevoke (signer 6) (principal 2) group editor = [] := by
    have notOwn : ownProof (signer 6).verifyingKey editor = none :=
      Option.isNone_iff_eq_none.mp (by decide +kernel)
    have other : (signer 6).verifyingKey ≠ group.state.id := by
      rw [id_of_grown grown (by simp)]
      decide +kernel
    rw [proofsToRevoke, if_neg other, noAdmin, notOwn]
    rfl
  exact refused_of_no_proof (isEditor ▸ noProof)

/-- **A call fails, and the member has lost one of two delegations.** 6 has issued the first of them and has no part in
the second. -/
theorem failed_call_revokes :
    ∃ (ops : List (MembershipOperation Unit)) (group : Group Unit) (after : Call Unit), Group.Grown hash ops group ∧
      removal 6 2 false group = .error .noProof after ∧ ¬ SameGroup group after.group := by
  obtain ⟨group, ran, shown⟩ := group_of_view (by decide +kernel :
    (run .sorted admin [.delegation editor, .delegation coadmin, .delegation editorAgain]).map
      (fun group => ending (removal 6 2 false group))
      = .ok (some .noProof, ([(1, [10]), (2, [11]), (6, [15])], [100])))
  have before := view_of_run ran (by decide +kernel :
    (run .sorted admin [.delegation editor, .delegation coadmin, .delegation editorAgain]).map summary
      = .ok ([(1, [10]), (2, [16, 11]), (6, [15])], []))
  obtain ⟨after, failed, later⟩ := failed_of_ending shown
  have inOrder : InOrder [.delegation admin] [.delegation editor, .delegation coadmin, .delegation editorAgain] := by
    simp [InOrder, MembershipOperation.afterAuth, editor, coadmin, editorAgain, admin, delegation]
  refine ⟨_, group, after, grown_of_run inOrder ran, failed, fun same => ?_⟩
  have equal : summary after.group = summary group := by rw [summary, summary, same.members, same.activeRevocations]
  rw [before, later] at equal
  exact absurd equal (by decide)

end Sample

end KeyhiveEval.Core
