/-
**Chains of authority.**

A delegation names the delegation that its issuer acts under, which names another, and so on up to one that the key of
the group has issued. `add_delegation` takes a delegation exactly if every link of this chain holds and none gives less
than is passed on.

* `addDelegationInPlace` — `add_delegation` as it changes the group and the shared stores, write by write.
  `addDelegationInPlace_eq` says that it is `addDelegation`, and that it has changed nothing when it fails.
* `GroupState.ChainOfAuthority` — what an accepted delegation has to have.
* **`GroupState.accepts_iff_chainOfAuthority`**.
-/

import KeyhiveEval.Core.GroupState
import KeyhiveEval.Lib.Stateful

set_option linter.unusedSectionVars false

namespace KeyhiveEval.Core

open Std Beekem Stateful

variable {T : Type} (hash : MembershipOperation T → MembershipDigest)

/-! ### Changing the group in place -/

namespace GroupState

/-- A method of a group, which changes the group and the stores that it shares. -/
abbrev GroupM (T : Type) := EStateM AddError (GroupState T × Stores T)

/-- One link of the fold over the proofs: the next delegation is the proof. -/
def checkLink (can : Access) (head proof : SignedDelegation T) : GroupM T (SignedDelegation T) := do
  if proof.payload.can < can then throw (.escelation can proof.payload.can)
  if head.issuer ≠ proof.payload.delegate.id then throw .invalidProofChain
  return proof

variable [DecidableEq T]

/-- The writes of `add_delegation`, for the state of the group as it was read. -/
def writeDelegation (order : HashOrder T) (state : GroupState T) (dlg : SignedDelegation T) :
    GroupM T MembershipDigest := do
  (order.delegations state.delegationHeads.toList).forM fun entry =>
    modify fun (state, stores) =>
      ({ state with delegationHeads := headStep hash dlg state.delegationHeads entry }, stores)
  (order.revocations state.revocationHeads.toList).forM fun entry =>
    modify fun (state, stores) =>
      ({ state with
         revocationHeads :=
           if dlg.payload.afterRevocations.any fun rev => rev.same entry.2 then state.revocationHeads.erase entry.1
           else state.revocationHeads }, stores)
  modify fun (state, stores) =>
    (state, { stores with delegations := insertDelegation hash stores.delegations dlg })
  return hash (.delegation dlg)

/-- `add_delegation`, with its writes in the order of the source. -/
def addDelegationInPlace (order : HashOrder T) (dlg : SignedDelegation T) : GroupM T MembershipDigest := do
  let (state, _) ← get
  if dlg.subjectId ≠ state.id then throw (.invalidSubject dlg.subjectId)
  if dlg.payload.proof.isNone && dlg.issuer ≠ state.id then throw .invalidProofChain
  let _ ← dlg.proofLineage.foldlM (checkLink dlg.payload.can) dlg
  writeDelegation hash order state dlg

/-- What a computation that only fails by its checks leaves behind. -/
def inPlace (before : GroupState T × Stores T) :
    Except AddError (MembershipDigest × GroupState T × Stores T) →
      EStateM.Result AddError (GroupState T × Stores T) MembershipDigest
  | .ok (digest, state, stores) => .ok digest (state, stores)
  | .error e => .error e before

theorem foldlM_checkLink (can : Access) (head : SignedDelegation T) (lineage : List (SignedDelegation T))
    (before : GroupState T × Stores T) :
    lineage.foldlM (checkLink can) head before =
      match checkDelegationLineage can head lineage with
      | .ok _ => .ok ((head :: lineage).getLast (by simp)) before
      | .error e => .error e before := by
  induction lineage generalizing head with
  | nil => rfl
  | cons proof rest ih =>
    rw [List.foldlM_cons, checkDelegationLineage]
    show EStateM.bind (checkLink can head proof) _ before = _
    unfold checkLink EStateM.bind
    by_cases less : proof.payload.can < can
    · simp only [less, if_true]
      rfl
    · by_cases other : head.issuer = proof.payload.delegate.id
      · simp only [less, other, if_false, ne_eq, not_true]
        exact ih proof
      · simp only [less, other, if_false, if_true, ne_eq, not_false_eq_true]
        rfl

theorem foldl_delegationHeads (dlg : SignedDelegation T) (entries : List (MembershipDigest × SignedDelegation T))
    (state : GroupState T) (stores : Stores T) :
    entries.foldl (fun (before : GroupState T × Stores T) entry =>
        ({ before.1 with delegationHeads := headStep hash dlg before.1.delegationHeads entry }, before.2)) (state, stores)
      = ({ state with delegationHeads := entries.foldl (headStep hash dlg) state.delegationHeads }, stores) := by
  induction entries generalizing state with
  | nil => rfl
  | cons entry rest ih => exact ih _

theorem foldl_revocationHeads (change : RevocationStore T → MembershipDigest × SignedRevocation T → RevocationStore T)
    (entries : List (MembershipDigest × SignedRevocation T)) (state : GroupState T) (stores : Stores T) :
    entries.foldl (fun (before : GroupState T × Stores T) entry =>
        ({ before.1 with revocationHeads := change before.1.revocationHeads entry }, before.2)) (state, stores)
      = ({ state with revocationHeads := entries.foldl change state.revocationHeads }, stores) := by
  induction entries generalizing state with
  | nil => rfl
  | cons entry rest ih => exact ih _

theorem writeDelegation_eq (order : HashOrder T) (state : GroupState T) (stores : Stores T) (dlg : SignedDelegation T) :
    writeDelegation hash order state dlg (state, stores) = .ok (hash (.delegation dlg))
      ({ state with
        delegationHeads := delegationHeadsAfter hash order state.delegationHeads dlg
        revocationHeads := revocationHeadsAfter order state.revocationHeads dlg },
      { stores with delegations := insertDelegation hash stores.delegations dlg }) := by
  let heads := delegationHeadsAfter hash order state.delegationHeads dlg
  refine seq_ok_iff.mpr ⟨({ state with delegationHeads := heads }, stores), ?_, seq_ok_iff.mpr ⟨({ state with
    delegationHeads := heads
    revocationHeads := revocationHeadsAfter order state.revocationHeads dlg }, stores), ?_, rfl⟩⟩
  · exact (forM_modify _ _ _).trans (congrArg _ (foldl_delegationHeads hash dlg _ state stores))
  · exact (forM_modify _ _ _).trans (congrArg _ (foldl_revocationHeads (fun heads entry =>
      if dlg.payload.afterRevocations.any fun rev => rev.same entry.2 then heads.erase entry.1 else heads) _ _ stores))

/-- **The writes are those of `addDelegation`, and there are none before the last check.** -/
theorem addDelegationInPlace_eq (order : HashOrder T) (state : GroupState T) (stores : Stores T)
    (dlg : SignedDelegation T) :
    addDelegationInPlace hash order dlg (state, stores)
      = inPlace (state, stores) (state.addDelegation hash order stores dlg) := by
  unfold addDelegationInPlace addDelegation checkDelegation
  show (if dlg.subjectId ≠ state.id then _
    else if (dlg.payload.proof.isNone && dlg.issuer ≠ state.id) = true then _
    else dlg.proofLineage.foldlM (checkLink dlg.payload.can) dlg >>= fun _ => writeDelegation hash order state dlg :
      GroupM T MembershipDigest) (state, stores) = _
  by_cases subject : dlg.subjectId = state.id
  · by_cases issued : (dlg.payload.proof.isNone && dlg.issuer ≠ state.id) = true
    · rw [if_neg (not_not.mpr subject), if_neg (not_not.mpr subject), if_pos issued, if_pos issued]
      rfl
    · rw [if_neg (not_not.mpr subject), if_neg (not_not.mpr subject), if_neg issued, if_neg issued]
      show EStateM.bind _ _ (state, stores) = _
      unfold EStateM.bind
      rw [foldlM_checkLink]
      cases checkDelegationLineage dlg.payload.can dlg dlg.proofLineage with
      | error e => rfl
      | ok _ => exact writeDelegation_eq hash order state stores dlg
  · rw [if_pos subject, if_pos subject]
    rfl

/-! ### What is accepted -/

section Chain

omit [DecidableEq T]

variable (state : GroupState T) (dlg : SignedDelegation T)

/-- A delegation with its proof, the proof of that, and so on: never empty. -/
def chain : List (SignedDelegation T) := dlg :: dlg.proofLineage

/-- **A chain of authority from the group**: the key of the group has issued its root, every delegation is issued by
the delegate of the next, and none gives less than is passed on. -/
structure ChainOfAuthority : Prop where
  root : ((chain dlg).getLast (by simp [chain])).issuer = state.id
  links : (chain dlg).IsChain fun given proof => given.issuer = proof.payload.delegate.id
  access : ∀ proof ∈ dlg.proofLineage, dlg.payload.can ≤ proof.payload.can

variable {state dlg}

theorem subjectId_eq_issuer_root :
    dlg.subjectId = ((chain dlg).getLast (by simp [chain])).issuer := by
  unfold chain
  induction dlg using SignedDelegation.proofLineage.induct with
  | case1 => simp [SignedDelegation.proofLineage, SignedDelegation.subjectId]
  | case2 delegate can proof revocations content issuer signature ih =>
    simp only [SignedDelegation.proofLineage, SignedDelegation.subjectId, List.getLast_cons_cons]
    exact ih

/-- The fold over the proofs looks at every link. -/
theorem checkDelegationLineage_ok_iff {can : Access} {head : SignedDelegation T} {lineage : List (SignedDelegation T)} :
    checkDelegationLineage can head lineage = .ok () ↔
      (head :: lineage).IsChain (fun given proof => given.issuer = proof.payload.delegate.id) ∧
        ∀ proof ∈ lineage, can ≤ proof.payload.can := by
  induction lineage generalizing head with
  | nil => simp [checkDelegationLineage, pure, Except.pure]
  | cons proof rest ih =>
    rw [checkDelegationLineage, List.isChain_cons_cons, List.forall_mem_cons]
    by_cases less : proof.payload.can < can
    · rw [if_pos less]
      exact iff_of_false (by simp [throw, throwThe, MonadExceptOf.throw]) fun holds => absurd less holds.2.1.not_gt
    · by_cases other : head.issuer = proof.payload.delegate.id
      · rw [if_neg less, if_neg (not_not.mpr other), ih]
        constructor
        · rintro ⟨links, access⟩
          exact ⟨⟨other, links⟩, le_of_not_gt less, access⟩
        · rintro ⟨⟨-, links⟩, -, access⟩
          exact ⟨links, access⟩
      · rw [if_neg less, if_pos other]
        exact iff_of_false (by simp [throw, throwThe, MonadExceptOf.throw]) fun holds => other holds.1.1

theorem checkDelegation_ok_iff : state.checkDelegation dlg = .ok () ↔ state.ChainOfAuthority dlg := by
  unfold checkDelegation
  by_cases subject : dlg.subjectId = state.id
  · -- the check of a root for its issuer has been made with that of the subject
    have issued : ¬ (dlg.payload.proof.isNone && dlg.issuer ≠ state.id) = true := by
      intro root
      obtain ⟨noProof, other⟩ := (Bool.and_eq_true_iff).mp root
      rw [SignedDelegation.subjectId_of_root (Option.isNone_iff_eq_none.mp noProof)] at subject
      exact (of_decide_eq_true other) subject
    rw [if_neg (not_not.mpr subject), if_neg issued]
    show checkDelegationLineage dlg.payload.can dlg dlg.proofLineage = .ok () ↔ _
    rw [checkDelegationLineage_ok_iff]
    constructor
    · rintro ⟨links, access⟩
      exact ⟨subjectId_eq_issuer_root ▸ subject, links, access⟩
    · rintro ⟨-, links, access⟩
      exact ⟨links, access⟩
  · rw [if_pos subject]
    refine iff_of_false (fun accepted => ?_) fun chain => subject (subjectId_eq_issuer_root.trans chain.root)
    cases accepted

end Chain

/-- **A delegation is taken exactly if it has a chain of authority from the group**, and where it is not taken the
heads and the stores are as they were. -/
theorem accepts_iff_chainOfAuthority (order : HashOrder T) (state : GroupState T) (stores : Stores T)
    (dlg : SignedDelegation T) :
    ((∃ digest after, addDelegationInPlace hash order dlg (state, stores) = .ok digest after) ↔
      state.ChainOfAuthority dlg) ∧
    ∀ e after, addDelegationInPlace hash order dlg (state, stores) = .error e after → after = (state, stores) := by
  rw [addDelegationInPlace_eq, ← checkDelegation_ok_iff]
  unfold addDelegation
  cases checked : state.checkDelegation dlg with
  | ok _ =>
    refine ⟨iff_of_true ⟨_, _, rfl⟩ rfl, fun e after fails => ?_⟩
    cases fails
  | error e =>
    refine ⟨iff_of_false ?_ (by simp), fun e' after fails => ?_⟩
    · rintro ⟨digest, after, accepted⟩
      cases accepted
    · cases fails
      rfl

end GroupState

end KeyhiveEval.Core
