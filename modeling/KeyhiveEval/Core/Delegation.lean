/-
**`delegation.rs`, `revocation.rs`: the operations on the membership of a group.**

A delegation gives an agent access to a group. It is issued under a proof: the delegation that gave
the issuer their access; a delegation without a proof is issued by the group's own key. A revocation
takes a delegation back. Operations refer to each other by shared pointers to values that never
change, so they are terms here, and what an operation refers to is a part of it.

* Two signed values are equal if issuer and signature are, whatever they carry (`Signed`'s `PartialEq`):
  `SignedDelegation.same`, `SignedRevocation.same`. Payloads are compared field by field
  (`Delegation.same`), and so down to the signatures of what they refer to.
* An agent is the kind of principal with its identifier; the principal itself is looked up in the
  keyhive that holds it.
* The digest of an operation is a parameter of the functions that store them.
-/

import KeyhiveEval.Beekem.Operation

namespace KeyhiveEval.Core

open Std Beekem

/-- A principal: the bytes of its verifying key. -/
abbrev Identifier := Bytes32 VerifyingKeyTag

abbrev Signature := BitVec 512

instance transOrdSignature : TransOrd Signature := inferInstance

/-! ### Access levels -/

/-- The access levels, from the least to the most permissive. -/
inductive Access
  | relay
  | read
  | edit
  | admin
deriving DecidableEq, Repr

namespace Access

def level : Access → Nat
  | .relay => 0
  | .read => 1
  | .edit => 2
  | .admin => 3

theorem level_injective : Function.Injective level := by
  intro first second same
  cases first <;> cases second <;> first | rfl | simp [level] at same

instance : LinearOrder Access := LinearOrder.lift' level level_injective

theorem le_def {first second : Access} : first ≤ second ↔ first.level ≤ second.level := Iff.rfl

theorem le_admin (access : Access) : access ≤ .admin := by
  cases access <;> exact le_def.mpr (by decide)

end Access

/-! ### Agents -/

inductive AgentKind
  | active
  | individual
  | group
  | document
deriving DecidableEq, Repr

structure Agent where
  kind : AgentKind
  id : Identifier
deriving DecidableEq

/-! ### Delegations and revocations -/

mutual

structure SignedDelegation (T : Type) where
  payload : Delegation T
  issuer : Identifier
  signature : Signature

structure Delegation (T : Type) where
  delegate : Agent
  can : Access
  proof : Option (SignedDelegation T)
  afterRevocations : List (SignedRevocation T)
  afterContent : ExtTreeMap Identifier (List T)

structure SignedRevocation (T : Type) where
  payload : Revocation T
  issuer : Identifier
  signature : Signature

structure Revocation (T : Type) where
  revoke : SignedDelegation T
  proof : Option (SignedDelegation T)
  afterContent : ExtTreeMap Identifier (List T)

end

variable {T : Type}

/-- What signed values are told apart by. -/
def SignedDelegation.stamp (dlg : SignedDelegation T) : Identifier × Signature :=
  (dlg.issuer, dlg.signature)

/-- What signed values are told apart by. -/
def SignedRevocation.stamp (rev : SignedRevocation T) : Identifier × Signature :=
  (rev.issuer, rev.signature)

def SignedDelegation.same (dlg other : SignedDelegation T) : Bool := decide (dlg.stamp = other.stamp)

def SignedRevocation.same (rev other : SignedRevocation T) : Bool := decide (rev.stamp = other.stamp)

/-- Payloads are equal if their fields are. -/
def Delegation.same [DecidableEq T] (dlg other : Delegation T) : Bool :=
  decide (dlg.delegate = other.delegate ∧ dlg.can = other.can ∧
    dlg.proof.map SignedDelegation.stamp = other.proof.map SignedDelegation.stamp ∧
    dlg.afterRevocations.map SignedRevocation.stamp
      = other.afterRevocations.map SignedRevocation.stamp ∧
    dlg.afterContent = other.afterContent)

namespace SignedDelegation

def proofLineage : SignedDelegation T → List (SignedDelegation T)
  | ⟨⟨_, _, none, _, _⟩, _, _⟩ => []
  | ⟨⟨_, _, some proof, _, _⟩, _, _⟩ => proof :: proof.proofLineage

/-- The group that a delegation is about: the issuer at the root of its proofs. -/
def subjectId : SignedDelegation T → Identifier
  | ⟨⟨_, _, none, _, _⟩, issuer, _⟩ => issuer
  | ⟨⟨_, _, some proof, _, _⟩, _, _⟩ => proof.subjectId

/-- `payload.is_descendant_of(maybe_ancestor)`. -/
def isDescendantOf (dlg maybeAncestor : SignedDelegation T) : Bool :=
  dlg.proofLineage.any fun proof => proof.same maybeAncestor

/-- `payload.is_ancestor_of(maybe_descendant)`. The payload is looked for, not the signed value. -/
def isAncestorOf [DecidableEq T] (dlg maybeDescendant : SignedDelegation T) : Bool :=
  maybeDescendant.proofLineage.any fun proof => proof.payload.same dlg.payload

@[simp]
theorem proofLineage_of_root {dlg : SignedDelegation T} (root : dlg.payload.proof = none) :
    dlg.proofLineage = [] := by
  obtain ⟨⟨_, _, proof, _, _⟩, _, _⟩ := dlg
  obtain rfl : proof = none := root
  rw [proofLineage]

theorem proofLineage_of_proof {dlg proof : SignedDelegation T} (found : dlg.payload.proof = some proof) :
    dlg.proofLineage = proof :: proof.proofLineage := by
  obtain ⟨⟨_, _, proof', _, _⟩, _, _⟩ := dlg
  obtain rfl : proof' = some proof := found
  rw [proofLineage]

theorem subjectId_of_root {dlg : SignedDelegation T} (root : dlg.payload.proof = none) :
    dlg.subjectId = dlg.issuer := by
  obtain ⟨⟨_, _, proof, _, _⟩, _, _⟩ := dlg
  obtain rfl : proof = none := root
  rw [subjectId]

theorem length_proofLineage_lt {dlg ancestor : SignedDelegation T}
    (above : ancestor ∈ dlg.proofLineage) :
    ancestor.proofLineage.length < dlg.proofLineage.length := by
  induction dlg using proofLineage.induct with
  | case1 => simp [proofLineage] at above
  | case2 delegate can proof revocations content issuer signature ih =>
    rw [proofLineage] at above ⊢
    rcases List.mem_cons.mp above with rfl | further
    · exact Nat.lt_succ_self _
    · exact (ih further).trans (Nat.lt_succ_self _)

end SignedDelegation

/-- The group that a revocation is about. -/
def SignedRevocation.subjectId (rev : SignedRevocation T) : Identifier :=
  rev.payload.revoke.subjectId

/-! ### Membership operations -/

inductive MembershipOperation (T : Type)
  | delegation (dlg : SignedDelegation T)
  | revocation (rev : SignedRevocation T)

inductive MembershipOpTag

abbrev MembershipDigest := Digest MembershipOpTag

namespace MembershipOperation

def subjectId : MembershipOperation T → Identifier
  | .delegation dlg => dlg.subjectId
  | .revocation rev => rev.subjectId

def isDelegation : MembershipOperation T → Bool
  | .delegation _ => true
  | .revocation _ => false

def isRevocation (op : MembershipOperation T) : Bool := !op.isDelegation

def signature : MembershipOperation T → Signature
  | .delegation dlg => dlg.signature
  | .revocation rev => rev.signature

/-- The operations that an operation refers to, delegations first. -/
def afterAuth : MembershipOperation T → List (MembershipOperation T)
  | .delegation dlg =>
    dlg.payload.proof.toList.map .delegation ++ dlg.payload.afterRevocations.map .revocation
  | .revocation rev =>
    .delegation rev.payload.revoke :: rev.payload.proof.toList.map .delegation

end MembershipOperation

/-! ### The weight of an operation -/

mutual

/-- How many operations a delegation is made of, counted with repetitions. -/
def SignedDelegation.weight : SignedDelegation T → Nat
  | ⟨⟨_, _, proof, revocations, _⟩, _, _⟩ =>
    1 + (match proof with | none => 0 | some dlg => dlg.weight) + weights revocations

/-- How many operations a revocation is made of, counted with repetitions. -/
def SignedRevocation.weight : SignedRevocation T → Nat
  | ⟨⟨revoke, proof, _⟩, _, _⟩ =>
    1 + revoke.weight + (match proof with | none => 0 | some dlg => dlg.weight)

def weights : List (SignedRevocation T) → Nat
  | [] => 0
  | rev :: rest => rev.weight + weights rest

end

theorem weights_eq_sum (revs : List (SignedRevocation T)) :
    weights revs = (revs.map SignedRevocation.weight).sum := by
  induction revs with
  | nil => rw [weights, List.map_nil, List.sum_nil]
  | cons rev rest ih => rw [weights, List.map_cons, List.sum_cons, ih]

/-- How many operations an operation is made of, counted with repetitions. -/
def MembershipOperation.weight : MembershipOperation T → Nat
  | .delegation dlg => dlg.weight
  | .revocation rev => rev.weight

/-- **An operation is heavier than all it refers to.** -/
theorem MembershipOperation.weight_eq (op : MembershipOperation T) :
    op.weight = 1 + (op.afterAuth.map weight).sum := by
  have revs (list : List (SignedRevocation T)) :
      (list.map (weight ∘ MembershipOperation.revocation)).sum
        = (list.map SignedRevocation.weight).sum := rfl
  cases op with
  | delegation dlg =>
    obtain ⟨⟨_, _, proof, revocations, _⟩, _, _⟩ := dlg
    cases proof with
    | none => simp [weight, afterAuth, SignedDelegation.weight, weights_eq_sum, revs]
    | some dlg =>
      simp [weight, afterAuth, SignedDelegation.weight, weights_eq_sum, revs, Nat.add_assoc]
  | revocation rev =>
    obtain ⟨⟨revoke, proof, _⟩, _, _⟩ := rev
    cases proof with
    | none => simp [weight, afterAuth, SignedRevocation.weight]
    | some dlg => simp [weight, afterAuth, SignedRevocation.weight, Nat.add_assoc]

theorem MembershipOperation.weight_lt {op before : MembershipOperation T}
    (refers : before ∈ op.afterAuth) : before.weight < op.weight := by
  rw [op.weight_eq]
  have part : before.weight ≤ (op.afterAuth.map weight).sum :=
    List.single_le_sum (fun _ _ => Nat.zero_le _) _ (List.mem_map_of_mem refers)
  omega

end KeyhiveEval.Core
