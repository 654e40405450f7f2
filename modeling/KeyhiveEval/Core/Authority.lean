/-
**Who can revoke.**

`add_delegation` compares the issuer of a delegation with the delegate of its proof. `add_revocation`
walks the proofs above the proof of a revocation and never looks at the issuer of the revocation
itself.

* `GroupState.Authorised` — the revocation is the group's own, or its proof is the revoked delegation or
  stands above it, and the issuer is a party to that proof.
* **`GroupState.revocation_authorised_iff`** — an accepted revocation is authorised, and takes nothing
  from the members that its issuer has no part in, exactly if its issuer is a party to its proof.
* `Sample.stranger_revokes` — a stranger revokes with somebody else's delegation as proof.
-/

import KeyhiveEval.Core.Heads
import KeyhiveEval.Core.Rebuilding
import KeyhiveEval.Core.GroupSample

namespace KeyhiveEval.Core

open Std Beekem

variable {T : Type}

/-! ### Where members come from -/

namespace Rebuild

variable {id : Identifier} {dlg : SignedDelegation T}

theorem mem_of_listed (vk : Identifier) (order : HashOrder T) (ops : List (MembershipOperation T))
    (listed : dlg ∈ (run vk order ops).members.delegationsTo id) :
    .delegation dlg ∈ ops ∧ dlg.payload.delegate.id = id := by
  suffices all : ∀ id dlg, dlg ∈ (run vk order ops).members.delegationsTo id →
      .delegation dlg ∈ ops ∧ dlg.payload.delegate.id = id from all id dlg listed
  refine run_induction (motive := fun ops state => ∀ id dlg, dlg ∈ state.members.delegationsTo id →
    .delegation dlg ∈ ops ∧ dlg.payload.delegate.id = id) ?_ ?_ ops
  · intro id dlg listed
    simp [start, Members.delegationsTo] at listed
  · intro ops op known id dlg listed
    have old (before : dlg ∈ (run vk order ops).members.delegationsTo id) :
        .delegation dlg ∈ ops ++ [op] ∧ dlg.payload.delegate.id = id :=
      ⟨List.mem_append_left _ (known id dlg before).1, (known id dlg before).2⟩
    cases op with
    | delegation new =>
      obtain ⟨deps, -, ⟨same, -⟩ | ⟨same, -⟩⟩ := takeDelegation_cases vk (run vk order ops) new
      · rw [take, same] at listed
        exact old listed
      · rw [take, same, delegationsTo_enlist] at listed
        split at listed
        · rename_i here
          rcases List.mem_append.mp listed with before | last
          · exact old before
          · rw [List.mem_singleton.mp last]
            exact ⟨by simp, here.2.symm⟩
        · exact old listed
    | revocation rev =>
      rw [take, takeRevocation] at listed
      split at listed
      · rw [delegationsTo_applyRevocation (playKeyed_run vk order ops)] at listed
        split at listed
        · exact old (List.mem_filter.mp listed).1
        · exact old listed
      · exact old listed

/-- **What a revocation takes from the members has the signature of what it revokes.** -/
theorem signature_of_dropped {vk : Identifier} {order : HashOrder T} {ops : List (MembershipOperation T)}
    {rev : SignedRevocation T}
    (listed : dlg ∈ (run vk order ops).members.delegationsTo id)
    (dropped : dlg ∉ ((run vk order ops).take vk order (.revocation rev)).members.delegationsTo id) :
    dlg.signature = rev.payload.revoke.signature := by
  by_contra other
  apply dropped
  rw [take, takeRevocation]
  split
  · rw [delegationsTo_applyRevocation (playKeyed_run vk order ops)]
    split
    · exact List.mem_filter.mpr ⟨listed, by simpa using other⟩
    · exact listed
  · exact listed

end Rebuild

/-! ### The parties of a delegation -/

/-- The principal issued the delegation, or it is made out to them. -/
def SignedDelegation.IsParty (dlg : SignedDelegation T) (id : Identifier) : Prop :=
  id = dlg.issuer ∨ id = dlg.payload.delegate.id

instance (dlg : SignedDelegation T) (id : Identifier) : Decidable (dlg.IsParty id) :=
  inferInstanceAs (Decidable (_ ∨ _))

/-- The principal is a party to the delegation or to one of the proofs above it. -/
def SignedDelegation.InProofChain (dlg : SignedDelegation T) (id : Identifier) : Prop :=
  ∃ link ∈ dlg :: dlg.proofLineage, link.IsParty id

instance (dlg : SignedDelegation T) (id : Identifier) : Decidable (dlg.InProofChain id) :=
  inferInstanceAs (Decidable (∃ link ∈ _, _))

/-- The issuer of a revocation is a party to its proof. -/
def SignedRevocation.IssuedByParty (rev : SignedRevocation T) : Prop :=
  ∀ proof, rev.payload.proof = some proof → proof.IsParty rev.issuer

namespace GroupState

variable {hash : MembershipOperation T → MembershipDigest} {state : GroupState T}
  {known : List (MembershipOperation T)} {rev : SignedRevocation T}

/-- The group's own key revokes, or a party to a proof that is, or stands above, what they revoke. -/
def Authorised (state : GroupState T) (rev : SignedRevocation T) : Prop :=
  (rev.payload.proof = none ∧ rev.issuer = state.id) ∨
    ∃ proof, rev.payload.proof = some proof ∧
      proof ∈ rev.payload.revoke :: rev.payload.revoke.proofLineage ∧ proof.IsParty rev.issuer

theorem checkRevocation_ok (checked : state.checkRevocation rev = .ok ()) :
    (rev.payload.proof = none → rev.issuer = state.id) ∧
      ∀ proof, rev.payload.proof = some proof →
        rev.payload.revoke.same proof = true ∨ rev.payload.revoke.isDescendantOf proof = true := by
  rw [checkRevocation] at checked
  cases given : rev.payload.proof with
  | none =>
    refine ⟨fun _ => ?_, by simp⟩
    by_contra other
    rw [given] at checked
    by_cases subject : rev.subjectId = state.id <;>
      simp [subject, other, bind, Except.bind, throw, throwThe, MonadExceptOf.throw] at checked
  | some proof =>
    refine ⟨by simp, fun proof' same => ?_⟩
    obtain rfl := Option.some.inj same
    by_contra other
    rw [not_or, Bool.not_eq_true, Bool.not_eq_true] at other
    rw [given] at checked
    by_cases subject : rev.subjectId = state.id <;>
      simp [subject, other, bind, Except.bind, throw, throwThe, MonadExceptOf.throw] at checked

/-- **The proof of an accepted revocation is what it revokes or stands above it**, as long as signatures
tell operations apart. -/
theorem proof_above_revoked (checked : state.checkRevocation rev = .ok ())
    (signatures : ∀ first ∈ known, ∀ second ∈ known, first.signature = second.signature → first = second)
    (closed : ∀ op ∈ known, ∀ before ∈ op.afterAuth, before ∈ known) (here : .revocation rev ∈ known)
    {proof : SignedDelegation T} (given : rev.payload.proof = some proof) :
    proof ∈ rev.payload.revoke :: rev.payload.revoke.proofLineage := by
  have proofKnown : .delegation proof ∈ known := closed _ here _ (by
    simp [MembershipOperation.afterAuth, given])
  have revokeKnown : .delegation rev.payload.revoke ∈ known := closed _ here _ (by
    simp [MembershipOperation.afterAuth])
  have told {dlg : SignedDelegation T} (dlgKnown : .delegation dlg ∈ known) (same : dlg.same proof = true) :
      dlg = proof :=
    MembershipOperation.delegation.inj (signatures (.delegation dlg) dlgKnown _ proofKnown
      (congrArg Prod.snd (of_decide_eq_true same)))
  rcases (checkRevocation_ok checked).2 proof given with same | above
  · rw [← told revokeKnown same]
    exact List.mem_cons_self
  · rw [SignedDelegation.isDescendantOf, List.any_eq_true] at above
    obtain ⟨link, listed, same⟩ := above
    have linkKnown := (MembershipOperation.reaches_of_mem_proofLineage listed).mem closed revokeKnown
    rw [← told linkKnown same]
    exact List.mem_cons_of_mem _ listed

/-- **Only authorised principals revoke — exactly where the issuer is a party to the proof.** An accepted
revocation is authorised, and at no point of a rebuild takes a delegation from the members in
whose chain of proofs its issuer has no part, if and only if its issuer is a party to its proof. -/
theorem revocation_authorised_iff {stores : Stores T} {result : MembershipDigest × GroupState T × Stores T}
    (accepted : state.addRevocation hash stores rev = .ok result)
    (signatures : ∀ first ∈ known, ∀ second ∈ known, first.signature = second.signature → first = second)
    (closed : ∀ op ∈ known, ∀ before ∈ op.afterAuth, before ∈ known) (here : .revocation rev ∈ known) :
    (state.Authorised rev ∧
      ∀ (order : HashOrder T) (ops : List (MembershipOperation T)), (∀ op ∈ ops, op ∈ known) →
        ∀ (id : Identifier) (dlg : SignedDelegation T),
          dlg ∈ (Rebuild.run state.id order ops).members.delegationsTo id →
          dlg ∉ ((Rebuild.run state.id order ops).take state.id order
            (.revocation rev)).members.delegationsTo id →
          rev.issuer = state.id ∨ dlg.InProofChain rev.issuer) ↔
      rev.IssuedByParty := by
  have checked : state.checkRevocation rev = .ok () := by
    cases outcome : state.checkRevocation rev with
    | error e => simp [addRevocation, outcome, bind, Except.bind] at accepted
    | ok _ => rfl
  constructor
  · rintro ⟨⟨root, -⟩ | ⟨proof, given, -, party⟩, -⟩ proof' given'
    · simp [root] at given'
    · rw [given] at given'
      exact Option.some.inj given' ▸ party
  · intro byParty
    refine ⟨?_, fun order ops within id dlg listed dropped => ?_⟩
    · cases given : rev.payload.proof with
      | none => exact .inl ⟨given, (checkRevocation_ok checked).1 given⟩
      | some proof =>
        exact .inr ⟨proof, given, proof_above_revoked checked signatures closed here given,
          byParty proof given⟩
    · have taken := within _ (Rebuild.mem_of_listed state.id order ops listed).1
      have revokeKnown : .delegation rev.payload.revoke ∈ known := closed _ here _ (by
        simp [MembershipOperation.afterAuth])
      obtain rfl : dlg = rev.payload.revoke := MembershipOperation.delegation.inj
        (signatures _ taken _ revokeKnown (Rebuild.signature_of_dropped listed dropped))
      cases given : rev.payload.proof with
      | none => exact .inl ((checkRevocation_ok checked).1 given)
      | some proof =>
        exact .inr ⟨proof, proof_above_revoked checked signatures closed here given, byParty proof given⟩

end GroupState

namespace Sample

open GroupState

def takeBack : SignedRevocation Unit := revocation 20 1 editor (some editor)

/-- What is known once the editor's delegation is taken back. -/
def takenBack : List (MembershipOperation Unit) :=
  [.delegation admin, .delegation editor, .revocation takeBack]

theorem takenBack_closed : ∀ op ∈ takenBack, ∀ before ∈ op.afterAuth, before ∈ takenBack := by
  simp [takenBack, takeBack, revocation, admin, editor, delegation, MembershipOperation.afterAuth]

theorem takeBack_authorised : (later .sorted [.delegation editor]).Authorised takeBack := by
  obtain ⟨_, accepted⟩ := add_of_check hash .sorted ⟨∅, ∅⟩
    (by decide +kernel : (later .sorted [.delegation editor]).check (.revocation takeBack) = .ok ())
  refine ((revocation_authorised_iff accepted (fun _ here _ there => List.inj_on_of_nodup_map
    (by decide +kernel) here there) takenBack_closed (by simp [takenBack])).mpr ?_).1
  intro proof given
  rw [← Option.some.inj given]
  exact .inl rfl

/-- A stranger, 9, takes the subeditor's delegation back, with the administrator's as proof. -/
def stranger : SignedRevocation Unit := revocation 21 9 subeditor (some admin)

/-- **A stranger revokes.** Neither the group's key nor anyone in the chain of proofs of the subeditor's
delegation has issued the revocation; it is accepted, and the subeditor is no member any more. -/
theorem stranger_revokes :
    ∃ result, (later .sorted [.delegation editor, .delegation subeditor]).addRevocation hash ⟨∅, ∅⟩ stranger
        = .ok result ∧
      ¬ (later .sorted [.delegation editor, .delegation subeditor]).Authorised stranger ∧
      stranger.issuer ≠ principal 0 ∧ ¬ subeditor.InProofChain stranger.issuer ∧
      (run .sorted admin [.delegation editor, .delegation subeditor]).map summary
        = .ok ([(1, [10]), (2, [11]), (3, [12])], []) ∧
      (run .sorted admin [.delegation editor, .delegation subeditor, .revocation stranger]).map summary
        = .ok ([(1, [10]), (2, [11])], [21]) := by
  obtain ⟨_, accepted⟩ := add_of_check hash .sorted ⟨∅, ∅⟩
    (by decide +kernel : (later .sorted [.delegation editor, .delegation subeditor]).check
      (.revocation stranger) = .ok ())
  refine ⟨_, accepted, ?_, by decide +kernel, by decide +kernel, by decide +kernel, by decide +kernel⟩
  rintro (⟨root, -⟩ | ⟨proof, given, -, party⟩)
  · simp [stranger, revocation] at root
  · rw [← Option.some.inj given] at party
    exact absurd party (by decide +kernel)

end Sample

end KeyhiveEval.Core
