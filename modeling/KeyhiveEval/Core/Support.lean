/-
**Delegations that a rebuild keeps.**

A rebuild lists a delegation whose proof was revoked all the same, if whoever has issued the proof could have issued
the delegation too. So what is listed does not follow from the revocations alone. It does follow where no two
delegations that stand directly under each other are revoked.

* `Supported` — the proof of a delegation stays, or else the proof of the proof does, and so on up to the group's key.
* `Barred` — two links above a delegation are dropped, and nothing else gives their issuers access.
* `Replay` — the operations of a group as a rebuild takes them.
* `Sustained` — what holds along a rebuild; `Rebuild.barred_split` — what is barred is never listed.
* **`Group.Grown.listed_iff_unrevoked`** — a supported delegation is listed exactly if it is not revoked.
-/

import KeyhiveEval.Core.Linearisation
import KeyhiveEval.Core.RevokeSteps

namespace KeyhiveEval.Core

open Std Beekem OrderedSets

section

variable {T : Type} {hash : MembershipOperation T → MembershipDigest} {ops : List (MembershipOperation T)}

/-! ### Support -/

/-- No operation revokes the delegation. -/
def Unrevoked (ops : List (MembershipOperation T)) (dlg : SignedDelegation T) : Prop :=
  ∀ rev, .revocation rev ∈ ops → rev.payload.revoke ≠ dlg

/-- The revocations of the proof of a delegation are taken before it: there is one at most, or the delegation refers
to them. -/
def Ahead (ops : List (MembershipOperation T)) (dlg proof : SignedDelegation T) : Prop :=
  ∀ rev other, .revocation rev ∈ ops → .revocation other ∈ ops → rev.payload.revoke = proof →
    other.payload.revoke = proof → rev = other ∨ (MembershipOperation.delegation dlg).Reaches (.revocation rev)

/-- Nobody is made a member under the group's own identifier. -/
def NotMember (ops : List (MembershipOperation T)) (id : Identifier) : Prop :=
  ∀ dlg, .delegation dlg ∈ ops → dlg.payload.delegate.id ≠ id

/-- **A delegation is supported:** its proof stays, or the proof of its proof does, or there is none to stay. -/
inductive Supported (stays : SignedDelegation T → Prop) (ahead : SignedDelegation T → SignedDelegation T → Prop)
    (ownKey : Prop) : SignedDelegation T → Prop
  | root {dlg : SignedDelegation T} (root : dlg.payload.proof = none) : Supported stays ahead ownKey dlg
  | under {dlg proof : SignedDelegation T} (given : dlg.payload.proof = some proof) (stay : stays proof)
      (support : Supported stays ahead ownKey proof) : Supported stays ahead ownKey dlg
  | past {dlg proof above : SignedDelegation T} (given : dlg.payload.proof = some proof) (earlier : ahead dlg proof)
      (given' : proof.payload.proof = some above) (stay : stays above) (support : Supported stays ahead ownKey above) :
      Supported stays ahead ownKey dlg
  | pastRoot {dlg proof : SignedDelegation T} (given : dlg.payload.proof = some proof) (earlier : ahead dlg proof)
      (root : proof.payload.proof = none) (own : ownKey) : Supported stays ahead ownKey dlg

/-- Supported among the operations of a group. -/
abbrev SupportedIn (ops : List (MembershipOperation T)) (vk : Identifier) : SignedDelegation T → Prop :=
  Supported (Unrevoked ops) (Ahead ops) (NotMember ops vk)

/-- A revoked link of a chain that is dropped before what stands under it is taken. -/
def Dropped (ops : List (MembershipOperation T)) (supported : SignedDelegation T → Prop)
    (dlg proof : SignedDelegation T) : Prop :=
  supported proof ∧ ¬ Unrevoked ops proof ∧ Ahead ops dlg proof

/-- **A delegation is barred:** two links above each other are dropped, or the proof is barred, and whoever has issued
the proof has no other delegation. -/
inductive Barred (ops : List (MembershipOperation T)) (vk : Identifier) (supported : SignedDelegation T → Prop) :
    SignedDelegation T → Prop
  | cut {dlg proof above : SignedDelegation T} (given : dlg.payload.proof = some proof)
      (given' : proof.payload.proof = some above) (dropped : Dropped ops supported dlg proof)
      (gone : Dropped ops supported proof above) (notOwn : proof.issuer ≠ vk)
      (only : ∀ other, .delegation other ∈ ops → other.payload.delegate.id = proof.issuer → other = above) :
      Barred ops vk supported dlg
  | under {dlg proof above : SignedDelegation T} (given : dlg.payload.proof = some proof)
      (given' : proof.payload.proof = some above) (barred : Barred ops vk supported proof) (notOwn : proof.issuer ≠ vk)
      (only : ∀ other, .delegation other ∈ ops → other.payload.delegate.id = proof.issuer → other = above) :
      Barred ops vk supported dlg

theorem Barred.mono {vk : Identifier} {supported supported' : SignedDelegation T → Prop} {dlg : SignedDelegation T}
    (more : ∀ dlg, supported dlg → supported' dlg) (barred : Barred ops vk supported dlg) :
    Barred ops vk supported' dlg := by
  induction barred with
  | cut given given' dropped gone notOwn only =>
    exact .cut given given' ⟨more _ dropped.1, dropped.2⟩ ⟨more _ gone.1, gone.2⟩ notOwn only
  | under given given' _ notOwn only ih => exact .under given given' ih notOwn only

theorem Unrevoked.left {more : List (MembershipOperation T)} {dlg : SignedDelegation T}
    (unrevoked : Unrevoked (ops ++ more) dlg) : Unrevoked ops dlg := fun rev here =>
  unrevoked rev (List.mem_append_left _ here)

section Supports

variable {stays stays' : SignedDelegation T → Prop} {ahead ahead' : SignedDelegation T → SignedDelegation T → Prop}
  {ownKey ownKey' : Prop} {dlg : SignedDelegation T}

/-- What is supported stays so where no less stays; `P` is what is known of a chain. -/
theorem Supported.mono {P : SignedDelegation T → Prop} (support : Supported stays ahead ownKey dlg)
    (closed : ∀ dlg proof, P dlg → dlg.payload.proof = some proof → P proof) (start : P dlg)
    (more : ∀ dlg, P dlg → stays dlg → Supported stays ahead ownKey dlg → stays' dlg)
    (moreAhead : ∀ dlg proof, P dlg → dlg.payload.proof = some proof → Supported stays ahead ownKey proof →
      ahead dlg proof → ahead' dlg proof)
    (own : ownKey → ownKey') : Supported stays' ahead' ownKey' dlg := by
  induction support with
  | root root => exact .root root
  | under given stay support ih =>
    have next := closed _ _ start given
    exact .under given (more _ next stay support) (ih next)
  | past given earlier given' stay support ih =>
    have next := closed _ _ start given
    have next' := closed _ _ next given'
    exact .past given (moreAhead _ _ start given (.under given' stay support) earlier) given'
      (more _ next' stay support) (ih next')
  | pastRoot given earlier root holds =>
    exact .pastRoot given (moreAhead _ _ start given (.root root) earlier) root (own holds)

/-- **The chain of a supported delegation:** every link stays, or is passed over. -/
theorem Supported.link (support : Supported stays ahead ownKey dlg) {link : SignedDelegation T}
    (above : link ∈ dlg.proofLineage) :
    Supported stays ahead ownKey link ∧ (stays link ∨
      ((∃ child ∈ dlg :: dlg.proofLineage, child.payload.proof = some link ∧ ahead child link) ∧
        ((link.payload.proof = none ∧ ownKey) ∨
          ∃ proof, link.payload.proof = some proof ∧ stays proof ∧ Supported stays ahead ownKey proof))) := by
  induction support with
  | root root =>
    rw [SignedDelegation.proofLineage_of_root root] at above
    exact absurd above List.not_mem_nil
  | @under dlg proof given stay support ih =>
    rw [SignedDelegation.proofLineage_of_proof given] at above ⊢
    rcases List.mem_cons.mp above with rfl | further
    · exact ⟨support, .inl stay⟩
    · obtain ⟨supported, stays | ⟨⟨child, there, rest⟩, passed⟩⟩ := ih further
      · exact ⟨supported, .inl stays⟩
      · exact ⟨supported, .inr ⟨⟨child, List.mem_cons_of_mem _ there, rest⟩, passed⟩⟩
  | @past dlg proof above' given earlier given' stay support ih =>
    rw [SignedDelegation.proofLineage_of_proof given, SignedDelegation.proofLineage_of_proof given'] at above ⊢
    rcases List.mem_cons.mp above with rfl | further
    · exact ⟨.under given' stay support, .inr ⟨⟨dlg, List.mem_cons_self, given, earlier⟩,
        .inr ⟨above', given', stay, support⟩⟩⟩
    · rcases List.mem_cons.mp further with rfl | further
      · exact ⟨support, .inl stay⟩
      · obtain ⟨supported, stays | ⟨⟨child, there, rest⟩, passed⟩⟩ := ih further
        · exact ⟨supported, .inl stays⟩
        · exact ⟨supported, .inr ⟨⟨child, List.mem_cons_of_mem _ (List.mem_cons_of_mem _ there), rest⟩, passed⟩⟩
  | @pastRoot dlg proof given earlier root holds =>
    rw [SignedDelegation.proofLineage_of_proof given, SignedDelegation.proofLineage_of_root root] at above
    obtain rfl := List.mem_singleton.mp above
    exact ⟨.root root, .inr ⟨⟨dlg, List.mem_cons_self, given, earlier⟩, .inl ⟨root, holds⟩⟩⟩

end Supports

/-! ### The operations of a group -/

/-- Every delegation gives at most what its proof gives, and is issued by whom the proof is made out to. -/
def Attenuated (ops : List (MembershipOperation T)) : Prop :=
  ∀ dlg proof, .delegation dlg ∈ ops → dlg.payload.proof = some proof →
    dlg.payload.can ≤ proof.payload.can ∧ dlg.issuer = proof.payload.delegate.id

/-- What is known of the operations of a group. -/
structure Lawful (vk : Identifier) (ops : List (MembershipOperation T)) : Prop where
  signatures : ∀ first ∈ ops, ∀ second ∈ ops, first.signature = second.signature → first = second
  closed : ∀ op ∈ ops, ∀ before ∈ op.afterAuth, before ∈ ops
  attenuated : Attenuated ops
  rooted : ∀ dlg, .delegation dlg ∈ ops → dlg.payload.proof = none → dlg.issuer = vk
  proofAbove : ∀ op ∈ ops, op.ProofAbove
  own : ∀ rev, .revocation rev ∈ ops → rev.payload.proof = none → rev.issuer = vk

variable {vk : Identifier}

theorem Lawful.eq_of_signature (lawful : Lawful vk ops) {first second : SignedDelegation T}
    (here : .delegation first ∈ ops) (there : .delegation second ∈ ops) (same : first.signature = second.signature) :
    first = second :=
  MembershipOperation.delegation.inj (lawful.signatures _ here _ there same)

variable {dlg : SignedDelegation T}

theorem mem_afterAuth_of_proof {proof : SignedDelegation T} (given : dlg.payload.proof = some proof) :
    .delegation proof ∈ (MembershipOperation.delegation dlg).afterAuth := by
  simp [MembershipOperation.afterAuth, given]

/-- **The operations of a group as a rebuild takes them.** -/
structure Replay (ops replayed : List (MembershipOperation T)) : Prop where
  mem : ∀ op, op ∈ replayed ↔ op ∈ ops
  nodup : replayed.Nodup
  refers : ∀ first op last, replayed = first ++ op :: last → ∀ before ∈ op.afterAuth, before ∈ first
  revocations : ∀ first dlg last, replayed = first ++ .delegation dlg :: last → ∀ rev, .revocation rev ∈ ops →
    dlg.payload.proof = some rev.payload.revoke → Ahead ops dlg rev.payload.revoke → .revocation rev ∈ first

structure Replay.Taken (ops done : List (MembershipOperation T)) : Prop where
  within : ∀ op ∈ done, op ∈ ops
  closed : ∀ op ∈ done, ∀ before ∈ op.afterAuth, before ∈ done
  ahead : ∀ dlg, .delegation dlg ∈ done → ∀ rev, .revocation rev ∈ ops →
    dlg.payload.proof = some rev.payload.revoke → Ahead ops dlg rev.payload.revoke → .revocation rev ∈ done

variable {done : List (MembershipOperation T)}

theorem Replay.taken {rest : List (MembershipOperation T)} (replay : Replay ops (done ++ rest)) :
    Replay.Taken ops done where
  within op here := (replay.mem op).mp (List.mem_append_left _ here)
  closed op here before refers := by
    obtain ⟨first, last, rfl⟩ := List.append_of_mem here
    exact List.mem_append_left _ (replay.refers first op (last ++ rest) (by simp) before refers)
  ahead dlg here rev known given ahead := by
    obtain ⟨first, last, rfl⟩ := List.append_of_mem here
    exact List.mem_append_left _ (replay.revocations first dlg (last ++ rest) (by simp) rev known given ahead)

theorem Replay.mem_split {replayed rest : List (MembershipOperation T)} {op : MembershipOperation T}
    (replay : Replay ops replayed) (split : replayed = done ++ op :: rest) : op ∈ ops ∧ op ∉ done := by
  refine ⟨(replay.mem op).mp (by rw [split]; simp), fun member => ?_⟩
  have nodup := replay.nodup
  rw [split] at nodup
  exact (List.nodup_append.mp nodup).2.2 op member op List.mem_cons_self rfl

theorem Replay.Taken.proof (taken : Replay.Taken ops done)
    {proof : SignedDelegation T} (here : .delegation dlg ∈ done) (given : dlg.payload.proof = some proof) :
    .delegation proof ∈ done :=
  taken.closed _ here _ (mem_afterAuth_of_proof given)

theorem Replay.Taken.lineage (taken : Replay.Taken ops done)
    {link : SignedDelegation T} (here : .delegation dlg ∈ done) (above : link ∈ dlg :: dlg.proofLineage) :
    .delegation link ∈ done := by
  rcases List.mem_cons.mp above with rfl | further
  · exact here
  · exact (MembershipOperation.reaches_of_mem_proofLineage further).mem taken.closed here

/-- A supported delegation that was taken does not stand under what is revoked later. -/
theorem Replay.Taken.not_under (taken : Replay.Taken ops done)
    {rev : SignedRevocation T} (here : .revocation rev ∈ ops) (new : .revocation rev ∉ done)
    (support : SupportedIn ops vk dlg) (member : .delegation dlg ∈ done) (other : rev.payload.revoke ≠ dlg) :
    rev.payload.revoke ∉ dlg :: dlg.proofLineage := by
  intro above
  rcases List.mem_cons.mp above with same | further
  · exact other same
  · obtain ⟨-, stay | ⟨⟨child, there, given, ahead⟩, -⟩⟩ := support.link further
    · exact stay rev here rfl
    · -- What stands under the revoked delegation was taken after the revocation.
      exact new (taken.ahead child (taken.lineage member there) rev here given ahead)

/-! ### Along a rebuild -/

namespace Rebuild

/-- A delegation that is in play and was not revoked is alive. -/
theorem proofIsDead_eq_false {state : Rebuild T} {proof : SignedDelegation T} (played : proof.signature ∈ state.dlgsInPlay)
    (live : proof.signature ∉ state.revokedDlgs) : state.proofIsDead proof = false := by
  rw [proofIsDead, Bool.or_eq_false_iff, Bool.not_eq_false', ExtTreeMap.contains_iff_mem, ← Bool.not_eq_true,
    ExtTreeSet.contains_iff_mem]
  exact ⟨live, played⟩

theorem mem_delegationsTo_iff {members : Members T} {id : Identifier} {dlg : SignedDelegation T} :
    dlg ∈ members.delegationsTo id ↔ ∃ dlgs, members[id]? = some dlgs ∧ dlg ∈ dlgs.toList := by
  unfold Members.delegationsTo
  cases members[id]? <;> simp

/-- **What holds along a rebuild.** Of the supported delegations those that were not revoked are in play and listed, and
the others are not listed any more. -/
structure Sustained (vk : Identifier) (ops done : List (MembershipOperation T)) (state : Rebuild T) : Prop where
  keyed : PlayKeyed state.dlgsInPlay
  listed : ∀ id, ∀ dlg ∈ state.members.delegationsTo id, .delegation dlg ∈ done ∧ dlg.payload.delegate.id = id
  play : ∀ (sig : Signature) (dlg : SignedDelegation T), state.dlgsInPlay[sig]? = some dlg → .delegation dlg ∈ done
  under : ∀ above sig, Under state.reverseDlgDepMap above sig → ∃ dlg proof, .delegation dlg ∈ done ∧
    dlg.signature = sig ∧ dlg.payload.proof = some proof ∧ proof.signature = above
  revoked : ∀ sig ∈ state.revokedDlgs, ∃ dlg, .delegation dlg ∈ done ∧ dlg.signature = sig
  kept : ∀ dlg, SupportedIn ops vk dlg → .delegation dlg ∈ done → Unrevoked done dlg →
    dlg.signature ∈ state.dlgsInPlay ∧ dlg.signature ∉ state.revokedDlgs ∧
      dlg ∈ state.members.delegationsTo dlg.payload.delegate.id
  out : ∀ dlg, SupportedIn ops vk dlg → ¬ Unrevoked done dlg →
    dlg.signature ∈ state.revokedDlgs ∧ ∀ id, dlg ∉ state.members.delegationsTo id

section Steps

variable {vk : Identifier} {order : HashOrder T} {done : List (MembershipOperation T)} {state : Rebuild T}

/-- Whoever has issued the proof of a supported delegation that is passed over holds at least what the proof gives. -/
theorem Sustained.issuer (sustained : Sustained vk ops done state) (lawful : Lawful vk ops)
    (taken : Replay.Taken ops done) {proof above : SignedDelegation T} (here : .delegation proof ∈ done)
    (given : proof.payload.proof = some above) (stay : Unrevoked ops above) (support : SupportedIn ops vk above) :
    ∃ dlgs, state.members[proof.issuer]? = some dlgs ∧ above ∈ dlgs.toList ∧ proof.payload.can ≤ above.payload.can := by
  obtain ⟨enough, issuer⟩ := lawful.attenuated proof above (taken.within _ here) given
  obtain ⟨-, -, listed⟩ := sustained.kept above support (taken.proof here given)
    fun rev member => stay rev (taken.within _ member)
  obtain ⟨dlgs, found, member⟩ := mem_delegationsTo_iff.mp listed
  exact ⟨dlgs, issuer ▸ found, member, enough⟩

/-- Nobody is listed under the group's own identifier. -/
theorem Sustained.members_own (sustained : Sustained vk ops done state) (taken : Replay.Taken ops done)
    (own : NotMember ops vk) : state.members[vk]? = none := by
  cases found : state.members[vk]? with
  | none => rfl
  | some dlgs =>
    have listed : dlgs.head ∈ state.members.delegationsTo vk :=
      mem_delegationsTo_iff.mpr ⟨dlgs, found, List.mem_cons_self⟩
    obtain ⟨here, id⟩ := sustained.listed vk _ listed
    exact absurd id (own _ (taken.within _ here))

variable {dlg : SignedDelegation T}

theorem Sustained.admits (sustained : Sustained vk ops done state) (lawful : Lawful vk ops)
    (taken : Replay.Taken ops done) (here : .delegation dlg ∈ ops)
    (refers : ∀ proof, dlg.payload.proof = some proof → .delegation proof ∈ done) (support : SupportedIn ops vk dlg) :
    state.Admits vk dlg := by
  rw [Admits]
  cases support with
  | root root =>
    rw [root]
    exact lawful.rooted dlg here root
  | under given stay support =>
    rw [given]
    obtain ⟨played, live, -⟩ := sustained.kept _ support (refers _ given)
      fun rev member => stay rev (taken.within _ member)
    exact .inl (proofIsDead_eq_false played live)
  | @past _ proof above given earlier given' stay support =>
    rw [given]
    obtain ⟨dlgs, found, member, enough⟩ := sustained.issuer lawful taken (refers _ given) given' stay support
    have other : above.same proof = false := by
      rw [SignedDelegation.same, decide_eq_false_iff_not]
      intro same
      have proofKnown := taken.within _ (refers _ given)
      have aboveKnown := lawful.closed _ proofKnown _ (mem_afterAuth_of_proof given')
      have equal := lawful.eq_of_signature aboveKnown proofKnown (congrArg Prod.snd same)
      have listed : above ∈ proof.proofLineage := by
        rw [SignedDelegation.proofLineage_of_proof given']
        exact List.mem_cons_self
      have shorter := SignedDelegation.length_proofLineage_lt listed
      rw [equal] at shorter
      exact lt_irrefl _ shorter
    refine .inr ?_
    rw [hasAlternative, found]
    simp only [Bool.not_eq_true', List.all_eq_false]
    exact ⟨above, List.mem_filter.mpr ⟨member, by simp [other]⟩, by simpa using enough⟩
  | @pastRoot _ proof given earlier root own =>
    rw [given]
    have issuer := lawful.rooted proof (taken.within _ (refers _ given)) root
    refine .inr ?_
    rw [hasAlternative, issuer, sustained.members_own taken own]
    simp

/-- What a delegation changes: it comes into play and is listed, or nothing changes but what stands under what. -/
structure AfterDelegation (vk : Identifier) (dlg : SignedDelegation T) (before after : Rebuild T) : Prop where
  under : ∀ above sig, Under after.reverseDlgDepMap above sig ↔ Under before.reverseDlgDepMap above sig ∨
    (sig = dlg.signature ∧ ∃ proof, dlg.payload.proof = some proof ∧ above = proof.signature)
  revoked : after.revokedDlgs = before.revokedDlgs
  play : ∀ (sig : Signature) (other : SignedDelegation T), after.dlgsInPlay[sig]? = some other →
    before.dlgsInPlay[sig]? = some other ∨ (other = dlg ∧ sig = dlg.signature)
  played : ∀ sig ∈ before.dlgsInPlay, sig ∈ after.dlgsInPlay
  listed : ∀ id, ∀ other ∈ after.members.delegationsTo id, other ∈ before.members.delegationsTo id ∨
    (other = dlg ∧ dlg.signature ∉ before.revokedDlgs ∧ id = dlg.payload.delegate.id)
  stays : ∀ id, ∀ other ∈ before.members.delegationsTo id, other ∈ after.members.delegationsTo id
  admitted : before.Admits vk dlg → dlg.signature ∉ before.revokedDlgs →
    dlg.signature ∈ after.dlgsInPlay ∧ dlg ∈ after.members.delegationsTo dlg.payload.delegate.id

theorem afterDelegation (vk : Identifier) (state : Rebuild T) (dlg : SignedDelegation T) :
    AfterDelegation vk dlg state (state.takeDelegation vk dlg) := by
  obtain ⟨deps, under, ⟨same, turnedDown⟩ | ⟨same, -⟩⟩ := takeDelegation_cases vk state dlg
  · rw [same]
    exact ⟨under, rfl, fun sig other found => .inl found, fun sig played => played, fun id other listed => .inl listed,
      fun id other listed => listed, fun admits => absurd admits turnedDown⟩
  · rw [same]
    by_cases revoked : dlg.signature ∈ state.revokedDlgs
    · rw [enlist, if_pos (ExtTreeSet.contains_iff_mem.mpr revoked)]
      exact ⟨under, rfl, fun sig other found => .inl found, fun sig played => played,
        fun id other listed => .inl listed, fun id other listed => listed, fun _ live => absurd revoked live⟩
    · have live : ({ state with reverseDlgDepMap := deps } : Rebuild T).revokedDlgs.contains dlg.signature ≠ true :=
        fun found => revoked (ExtTreeSet.contains_iff_mem.mp found)
      have members (id : Identifier) := delegationsTo_enlist { state with reverseDlgDepMap := deps } dlg id
      refine ⟨fun above sig => ?_, ?_, fun sig other found => ?_, fun sig played => ?_,
        fun id other listed => ?_, fun id other listed => ?_, fun _ _ => ⟨?_, ?_⟩⟩
      · rw [enlist, if_neg live]
        exact under above sig
      · rw [enlist, if_neg live]
      · rw [enlist, if_neg live] at found
        simp only at found
        rw [getElem?_insert_iff] at found
        split at found
        · rename_i here
          exact .inr ⟨(Option.some.inj found).symm, here⟩
        · exact .inl found
      · rw [enlist, if_neg live]
        exact mem_map_insert_iff.mpr (.inr played)
      · rw [members] at listed
        split at listed
        · rename_i admitted
          rcases List.mem_append.mp listed with old | last
          · exact .inl old
          · exact .inr ⟨List.mem_singleton.mp last, admitted⟩
        · exact .inl listed
      · rw [members]
        split
        · exact List.mem_append_left _ listed
        · exact listed
      · rw [enlist, if_neg live]
        exact mem_map_insert_iff.mpr (.inl rfl)
      · rw [members, if_pos ⟨revoked, rfl⟩]
        simp

/-- **A delegation keeps what holds along a rebuild.** -/
theorem Sustained.takeDelegation (sustained : Sustained vk ops done state) (lawful : Lawful vk ops)
    (taken : Replay.Taken ops done) (here : .delegation dlg ∈ ops)
    (new : .delegation dlg ∉ done) (refers : ∀ proof, dlg.payload.proof = some proof → .delegation proof ∈ done) :
    Sustained vk ops (done ++ [.delegation dlg]) (state.takeDelegation vk dlg) := by
  have after := afterDelegation vk state dlg
  have live : dlg.signature ∉ state.revokedDlgs := fun revoked => by
    obtain ⟨other, there, same⟩ := sustained.revoked _ revoked
    exact new (lawful.eq_of_signature (taken.within _ there) here same ▸ there)
  have old {op : MembershipOperation T} (member : op ∈ done) : op ∈ done ++ [.delegation dlg] :=
    List.mem_append_left _ member
  refine ⟨fun sig other found => ?_, fun id other listed => ?_, fun sig other found => ?_, fun above sig under => ?_,
    fun sig revoked => ?_, fun other support member unrevoked => ?_, fun other support revoked => ?_⟩
  · rcases after.play sig other found with before | ⟨rfl, rfl⟩
    · exact sustained.keyed sig other before
    · rfl
  · rcases after.listed id other listed with before | ⟨rfl, -, same⟩
    · exact ⟨old (sustained.listed id other before).1, (sustained.listed id other before).2⟩
    · exact ⟨by simp, same.symm⟩
  · rcases after.play sig other found with before | ⟨rfl, rfl⟩
    · exact old (sustained.play sig other before)
    · simp
  · rcases (after.under above sig).mp under with before | ⟨rfl, proof, given, rfl⟩
    · obtain ⟨other, proof, member, rest⟩ := sustained.under above sig before
      exact ⟨other, proof, old member, rest⟩
    · exact ⟨dlg, proof, by simp, rfl, given, rfl⟩
  · rw [after.revoked] at revoked
    obtain ⟨other, member, same⟩ := sustained.revoked sig revoked
    exact ⟨other, old member, same⟩
  · rcases List.mem_append.mp member with before | last
    · obtain ⟨played, notRevoked, listed⟩ := sustained.kept other support before unrevoked.left
      exact ⟨after.played _ played, after.revoked ▸ notRevoked, after.stays _ _ listed⟩
    · obtain rfl : other = dlg := by simpa using last
      obtain ⟨played, listed⟩ := after.admitted (sustained.admits lawful taken here refers support) live
      exact ⟨played, after.revoked ▸ live, listed⟩
  · have before : ¬ Unrevoked done other := fun unrevoked => revoked fun rev member =>
      unrevoked rev (by simpa using member)
    obtain ⟨isRevoked, unlisted⟩ := sustained.out other support before
    refine ⟨after.revoked ▸ isRevoked, fun id listed => ?_⟩
    rcases after.listed id other listed with still | ⟨rfl, notRevoked, -⟩
    · exact unlisted id still
    · exact notRevoked isRevoked

theorem Sustained.chain_of_falls (sustained : Sustained vk ops done state) (lawful : Lawful vk ops)
    (taken : Replay.Taken ops done) {start : SignedDelegation T} (here : .delegation start ∈ done) {sig : Signature}
    (falls : Falls state.reverseDlgDepMap state.dlgsInPlay start.signature sig) :
    ∃ dlg, .delegation dlg ∈ done ∧ dlg.signature = sig ∧ start ∈ dlg :: dlg.proofLineage := by
  induction falls with
  | start => exact ⟨start, here, rfl, List.mem_cons_self⟩
  | @under above sig _ under played ih =>
    obtain ⟨upper, upperHere, upperSig, chain⟩ := ih
    obtain ⟨dlg, proof, member, same, given, proofSig⟩ := sustained.under above sig under
    have equal := lawful.eq_of_signature (taken.within _ (taken.proof member given)) (taken.within _ upperHere)
      (proofSig.trans upperSig.symm)
    refine ⟨dlg, member, same, ?_⟩
    rw [SignedDelegation.proofLineage_of_proof given, equal]
    exact List.mem_cons_of_mem _ chain

/-- What an effective revocation changes. -/
structure AfterRevocation (rev : SignedRevocation T) (before after : Rebuild T) : Prop where
  deps : after.reverseDlgDepMap = before.reverseDlgDepMap
  play : ∀ (sig : Signature) (dlg : SignedDelegation T), after.dlgsInPlay[sig]? = some dlg →
    before.dlgsInPlay[sig]? = some dlg
  stays : ∀ sig, ¬ Falls before.reverseDlgDepMap before.dlgsInPlay rev.payload.revoke.signature sig →
    sig ∈ before.dlgsInPlay → sig ∈ after.dlgsInPlay
  revoked : ∀ sig, sig ∈ after.revokedDlgs ↔ sig ∈ before.revokedDlgs ∨ sig = rev.payload.revoke.signature ∨
    ∃ above, Falls before.reverseDlgDepMap before.dlgsInPlay rev.payload.revoke.signature above ∧
      Under before.reverseDlgDepMap above sig
  listed : ∀ id dlg, dlg ∈ after.members.delegationsTo id ↔ dlg ∈ before.members.delegationsTo id ∧
    ((before.dlgsInPlay[rev.payload.revoke.signature]?.map fun dlg => dlg.payload.delegate.id) = some id →
      dlg.signature ≠ rev.payload.revoke.signature)

theorem afterRevocation (keyed : PlayKeyed state.dlgsInPlay) (rev : SignedRevocation T) :
    AfterRevocation rev state (state.applyRevocation order rev) := by
  have spec : CascadeSpec state _ (state.cascade order rev.payload.revoke.signature) := cascade_spec keyed
  refine ⟨rfl, fun sig dlg found => ?_, fun sig stands played => ?_, spec.revoked, fun id dlg => ?_⟩
  · by_cases falls : Falls state.reverseDlgDepMap state.dlgsInPlay rev.payload.revoke.signature sig
    · exact absurd (mem_iff_exists.mpr ⟨dlg, found⟩) (spec.gone sig falls)
    · exact (spec.stays sig falls) ▸ found
  · obtain ⟨dlg, found⟩ := mem_iff_exists.mp played
    exact mem_iff_exists.mpr ⟨dlg, (spec.stays sig stands).trans found⟩
  · rw [delegationsTo_applyRevocation keyed]
    split
    · rename_i here
      rw [List.mem_filter]
      simp [here]
    · rename_i other
      simp [other]

variable {rev : SignedRevocation T}

/-- **A revocation of a supported delegation takes effect**, if it is the first. -/
theorem Sustained.effective (sustained : Sustained vk ops done state) (lawful : Lawful vk ops)
    (taken : Replay.Taken ops done) (here : .revocation rev ∈ ops)
    (refers : .delegation rev.payload.revoke ∈ done) (support : SupportedIn ops vk rev.payload.revoke)
    (unrevoked : Unrevoked done rev.payload.revoke) : state.isEffective vk rev = true := by
  rw [isEffective]
  cases given : rev.payload.proof with
  | none => simpa using lawful.own rev here given
  | some proof =>
    have alive {dlg : SignedDelegation T} (member : .delegation dlg ∈ done) (support : SupportedIn ops vk dlg)
        (unrevoked : Unrevoked done dlg) : state.proofIsDead dlg = false := by
      obtain ⟨played, live, -⟩ := sustained.kept dlg support member unrevoked
      exact proofIsDead_eq_false played live
    have above := lawful.proofAbove _ here proof given
    have proofHere := taken.lineage refers above
    simp only
    rcases List.mem_cons.mp above with rfl | further
    · rw [alive refers support unrevoked]
      rfl
    · obtain ⟨support', stay | ⟨-, ⟨root, own⟩ | ⟨upper, given', stay, support'⟩⟩⟩ := support.link further
      · rw [alive proofHere support' fun rev member => stay rev (taken.within _ member)]
        rfl
      · rw [lawful.rooted proof (taken.within _ proofHere) root, sustained.members_own taken own]
        simp
      · obtain ⟨dlgs, found, member, enough⟩ := sustained.issuer lawful taken proofHere given' stay support'
        rw [found]
        split
        · simp only [List.any_eq_true, decide_eq_true_eq]
          exact ⟨upper, member, enough⟩
        · rfl

/-- **A revocation keeps what holds along a rebuild.** -/
theorem Sustained.takeRevocation (sustained : Sustained vk ops done state) (lawful : Lawful vk ops)
    (taken : Replay.Taken ops done) (here : .revocation rev ∈ ops)
    (new : .revocation rev ∉ done) (refers : .delegation rev.payload.revoke ∈ done) :
    Sustained vk ops (done ++ [.revocation rev]) (state.takeRevocation vk order rev) := by
  have old {op : MembershipOperation T} (member : op ∈ done) : op ∈ done ++ [.revocation rev] :=
    List.mem_append_left _ member
  have earlier {dlg : SignedDelegation T} (member : .delegation dlg ∈ done ++ [.revocation rev]) :
      .delegation dlg ∈ done := by simpa using member
  have later {dlg : SignedDelegation T} (revoked : ¬ Unrevoked (done ++ [.revocation rev]) dlg)
      (before : Unrevoked done dlg) : rev.payload.revoke = dlg := by
    by_contra other
    refine revoked fun rev' member => ?_
    rcases List.mem_append.mp member with first | last
    · exact before rev' first
    · obtain rfl : rev' = rev := by simpa using last
      exact other
  rw [Rebuild.takeRevocation]
  split
  · have after : AfterRevocation rev state (state.applyRevocation order rev) := afterRevocation sustained.keyed rev
    have lineage {dlg : SignedDelegation T} (support : SupportedIn ops vk dlg) (member : .delegation dlg ∈ done)
        (unrevoked : Unrevoked (done ++ [.revocation rev]) dlg) : rev.payload.revoke ∉ dlg :: dlg.proofLineage :=
      taken.not_under here new support member (unrevoked rev (by simp))
    refine ⟨fun sig dlg found => sustained.keyed sig dlg (after.play sig dlg found), fun id dlg listed => ?_,
      fun sig dlg found => old (sustained.play sig dlg (after.play sig dlg found)), fun above sig under => ?_,
      fun sig revoked => ?_, fun dlg support member unrevoked => ?_, fun dlg support revoked => ?_⟩
    · obtain ⟨member, id⟩ := sustained.listed id dlg ((after.listed id dlg).mp listed).1
      exact ⟨old member, id⟩
    · rw [after.deps] at under
      obtain ⟨dlg, proof, member, rest⟩ := sustained.under above sig under
      exact ⟨dlg, proof, old member, rest⟩
    · rcases (after.revoked sig).mp revoked with before | rfl | ⟨above, -, under⟩
      · obtain ⟨dlg, member, same⟩ := sustained.revoked sig before
        exact ⟨dlg, old member, same⟩
      · exact ⟨_, old refers, rfl⟩
      · obtain ⟨dlg, -, member, same, -⟩ := sustained.under above sig under
        exact ⟨dlg, old member, same⟩
    · have before := earlier member
      have free := lineage support before unrevoked
      have otherSig : dlg.signature ≠ rev.payload.revoke.signature := fun same => free (by
        rw [lawful.eq_of_signature (taken.within _ before) (taken.within _ refers) same]
        exact List.mem_cons_self)
      obtain ⟨played, live, listed⟩ := sustained.kept dlg support before unrevoked.left
      refine ⟨after.stays _ (fun falls => ?_) played, fun isRevoked => ?_,
        (after.listed _ _).mpr ⟨listed, fun _ => otherSig⟩⟩
      · obtain ⟨other, there, same, chain⟩ := sustained.chain_of_falls lawful taken refers falls
        rw [lawful.eq_of_signature (taken.within _ there) (taken.within _ before) same] at chain
        exact free chain
      · rcases (after.revoked _).mp isRevoked with already | same | ⟨above, falls, under⟩
        · exact live already
        · exact otherSig same
        · obtain ⟨upper, there, upperSig, chain⟩ := sustained.chain_of_falls lawful taken refers falls
          obtain ⟨other, proof, there', same, given, proofSig⟩ := sustained.under above _ under
          obtain rfl := lawful.eq_of_signature (taken.within _ there') (taken.within _ before) same
          obtain rfl := lawful.eq_of_signature (taken.within _ (taken.proof there' given)) (taken.within _ there)
            (proofSig.trans upperSig.symm)
          refine free (List.mem_cons_of_mem _ ?_)
          rwa [SignedDelegation.proofLineage_of_proof given]
    · by_cases before : Unrevoked done dlg
      · obtain rfl := later revoked before
        refine ⟨(after.revoked _).mpr (.inr (.inl rfl)), fun id listed => ?_⟩
        obtain ⟨listed, dropped⟩ := (after.listed id _).mp listed
        -- The delegation is in play, so that it is dropped under its delegate.
        obtain ⟨found, inPlay⟩ := mem_iff_exists.mp (sustained.kept _ support refers before).1
        refine dropped ?_ rfl
        rw [inPlay, lawful.eq_of_signature (taken.within _ (sustained.play _ _ inPlay)) (taken.within _ refers)
          (sustained.keyed _ _ inPlay), Option.map_some, (sustained.listed id _ listed).2]
      · obtain ⟨isRevoked, unlisted⟩ := sustained.out dlg support before
        exact ⟨(after.revoked _).mpr (.inl isRevoked), fun id listed => unlisted id ((after.listed id dlg).mp listed).1⟩
  · rename_i idle
    refine ⟨sustained.keyed, fun id dlg listed => ?_, fun sig dlg found => old (sustained.play sig dlg found),
      fun above sig under => ?_, fun sig revoked => ?_, fun dlg support member unrevoked =>
        sustained.kept dlg support (earlier member) unrevoked.left, fun dlg support revoked => ?_⟩
    · exact ⟨old (sustained.listed id dlg listed).1, (sustained.listed id dlg listed).2⟩
    · obtain ⟨dlg, proof, member, rest⟩ := sustained.under above sig under
      exact ⟨dlg, proof, old member, rest⟩
    · obtain ⟨dlg, member, same⟩ := sustained.revoked sig revoked
      exact ⟨dlg, old member, same⟩
    · refine sustained.out dlg support fun before => ?_
      obtain rfl := later revoked before
      exact idle (sustained.effective lawful taken here refers support before)

theorem sustained_start (vk : Identifier) (ops : List (MembershipOperation T)) : Sustained vk ops [] start := by
  refine ⟨?_, ?_, ?_, ?_, ?_, ?_, fun dlg _ revoked => absurd (fun _ member => absurd member List.not_mem_nil) revoked⟩ <;>
    simp [start, PlayKeyed, Members.delegationsTo, Under]

section Run

variable {replayed rest : List (MembershipOperation T)}

theorem sustained_split (lawful : Lawful vk ops) (replay : Replay ops replayed) (split : replayed = done ++ rest) :
    Sustained vk ops done (run vk order done) := by
  induction done using List.reverseRecOn generalizing rest with
  | nil => exact sustained_start vk ops
  | append_singleton done op ih =>
    rw [List.append_assoc, List.singleton_append] at split
    have sustained := ih split
    have taken : Replay.Taken ops done := (split ▸ replay : Replay ops (done ++ op :: rest)).taken
    obtain ⟨here, new⟩ := replay.mem_split split
    have refers := replay.refers done op rest split
    rw [run_snoc]
    cases op with
    | delegation dlg =>
      exact sustained.takeDelegation lawful taken here new fun proof given => refers _ (mem_afterAuth_of_proof given)
    | revocation rev =>
      exact sustained.takeRevocation lawful taken here new (refers _ (by simp [MembershipOperation.afterAuth]))

/-- **What holds along a rebuild holds at its end.** -/
theorem sustained_run (lawful : Lawful vk ops) (replay : Replay ops replayed) :
    Sustained vk ops replayed (run vk order replayed) :=
  sustained_split lawful replay (List.append_nil _).symm

/-- What is dropped is not listed, and dead, once its revocations are taken. -/
theorem Sustained.dropped (sustained : Sustained vk ops done state) {dlg proof : SignedDelegation T}
    (dropped : Dropped ops (SupportedIn ops vk) dlg proof)
    (revoked : ∀ rev, .revocation rev ∈ ops → rev.payload.revoke = proof → .revocation rev ∈ done) :
    state.proofIsDead proof = true ∧ ∀ id, proof ∉ state.members.delegationsTo id := by
  obtain ⟨isRevoked, unlisted⟩ := sustained.out proof dropped.1 fun unrevoked =>
    dropped.2.1 fun rev known same => unrevoked rev (revoked rev known same) same
  refine ⟨?_, unlisted⟩
  rw [proofIsDead, ExtTreeSet.contains_iff_mem.mpr isRevoked]
  rfl

/-- Without alternatives a dead proof admits nothing. -/
theorem Sustained.not_admits (sustained : Sustained vk ops done state) (taken : Replay.Taken ops done)
    {dlg proof above : SignedDelegation T} (given : dlg.payload.proof = some proof)
    (dead : state.proofIsDead proof = true) (notOwn : proof.issuer ≠ vk)
    (only : ∀ other, .delegation other ∈ ops → other.payload.delegate.id = proof.issuer → other = above)
    (unlisted : ∀ id, above ∉ state.members.delegationsTo id) : ¬ state.Admits vk dlg := by
  have nobody : state.members[proof.issuer]? = none := by
    cases found : state.members[proof.issuer]? with
    | none => rfl
    | some dlgs =>
      have listed := mem_delegationsTo_iff.mpr ⟨dlgs, found, List.mem_cons_self⟩
      obtain ⟨here, id⟩ := sustained.listed _ _ listed
      exact absurd (only _ (taken.within _ here) id ▸ listed) (unlisted _)
  rw [Admits, given]
  simp [dead, hasAlternative, nobody, notOwn]

/-- When a barred delegation is taken, the two links above it are gone. -/
theorem not_admits_of_barred (lawful : Lawful vk ops) (replay : Replay ops replayed) {dlg : SignedDelegation T}
    (split : replayed = done ++ .delegation dlg :: rest) (barred : Barred ops vk (SupportedIn ops vk) dlg)
    (out : ∀ {above}, .delegation above ∈ ops → Barred ops vk (SupportedIn ops vk) above →
      above.signature ∉ (run vk order done).dlgsInPlay ∧ ∀ id, above ∉ (run vk order done).members.delegationsTo id) :
    ¬ (run vk order done).Admits vk dlg := by
  have sustained : Sustained vk ops done (run vk order done) := sustained_split lawful replay split
  have taken : Replay.Taken ops done := (split ▸ replay : Replay ops (done ++ .delegation dlg :: rest)).taken
  have refers {proof : SignedDelegation T} (given : dlg.payload.proof = some proof) : .delegation proof ∈ done :=
    replay.refers done _ rest split _ (mem_afterAuth_of_proof given)
  cases barred with
  | cut given given' dropped gone notOwn only =>
    refine sustained.not_admits taken given (sustained.dropped dropped fun rev known revokes => ?_).1 notOwn only
      (sustained.dropped gone fun rev known revokes => ?_).2
    · exact replay.revocations done dlg rest split rev known (revokes ▸ given) (revokes ▸ dropped.2.2)
    · exact taken.ahead _ (refers given) rev known (revokes ▸ given') (revokes ▸ gone.2.2)
  | @under _ proof above given given' barred notOwn only =>
    have proofKnown := taken.within _ (refers given)
    have dead : (run vk order done).proofIsDead proof = true := by
      rw [proofIsDead, Bool.or_eq_true, Bool.not_eq_true', ← Bool.not_eq_true, ExtTreeMap.contains_iff_mem]
      exact .inr (out proofKnown barred).1
    refine sustained.not_admits taken given dead notOwn only ?_
    cases barred with
    | cut given'' _ dropped =>
      obtain rfl := Option.some.inj (given'.symm.trans given'')
      exact (sustained.dropped dropped fun rev known revokes =>
        taken.ahead _ (refers given) rev known (revokes ▸ given') (revokes ▸ dropped.2.2)).2
    | under given'' _ barred =>
      obtain rfl := Option.some.inj (given'.symm.trans given'')
      exact (out (lawful.closed _ proofKnown _ (mem_afterAuth_of_proof given')) barred).2

/-- **What is barred is never in play nor listed.** -/
theorem barred_split (lawful : Lawful vk ops) (replay : Replay ops replayed) (split : replayed = done ++ rest)
    {dlg : SignedDelegation T} (here : .delegation dlg ∈ ops) (barred : Barred ops vk (SupportedIn ops vk) dlg) :
    dlg.signature ∉ (run vk order done).dlgsInPlay ∧ ∀ id, dlg ∉ (run vk order done).members.delegationsTo id := by
  induction done using List.reverseRecOn generalizing rest dlg with
  | nil => simp [run, start, Members.delegationsTo]
  | append_singleton done op ih =>
    rw [List.append_assoc, List.singleton_append] at split
    obtain ⟨outOfPlay, unlisted⟩ := ih split here barred
    rw [run_snoc]
    cases op with
    | delegation new =>
      have after := afterDelegation vk (run vk order done) new
      by_cases same : new = dlg
      · subst same
        obtain ⟨deps, -, ⟨unchanged, -⟩ | ⟨-, admits⟩⟩ := takeDelegation_cases vk (run vk order done) new
        · rw [take, unchanged]
          exact ⟨outOfPlay, unlisted⟩
        · exact absurd admits (not_admits_of_barred lawful replay split barred (ih split))
      · refine ⟨fun played => ?_, fun id listed => ?_⟩
        · obtain ⟨found, inPlay⟩ := mem_iff_exists.mp played
          rcases after.play _ _ inPlay with before | ⟨-, sig⟩
          · exact outOfPlay (mem_iff_exists.mpr ⟨found, before⟩)
          · exact same (lawful.eq_of_signature (replay.mem_split split).1 here sig.symm)
        · rcases after.listed id dlg listed with before | ⟨rfl, -⟩
          · exact unlisted id before
          · exact same rfl
    | revocation rev =>
      rw [take, takeRevocation]
      split
      · have after : AfterRevocation rev _ ((run vk order done).applyRevocation order rev) :=
          afterRevocation (sustained_split lawful replay split).keyed rev
        refine ⟨fun played => ?_, fun id listed => unlisted id ((after.listed id dlg).mp listed).1⟩
        obtain ⟨found, inPlay⟩ := mem_iff_exists.mp played
        exact outOfPlay (mem_iff_exists.mpr ⟨found, after.play _ _ inPlay⟩)
      · exact ⟨outOfPlay, unlisted⟩

end Run

end Steps

theorem delegationsTo_sublist (vk : Identifier) (order : HashOrder T) (ops : List (MembershipOperation T))
    (id : Identifier) :
    (((run vk order ops).members.delegationsTo id).map MembershipOperation.delegation).Sublist ops := by
  refine run_induction (motive := fun ops state =>
    ((state.members.delegationsTo id).map MembershipOperation.delegation).Sublist ops) ?_ ?_ ops
  · simp [start, Members.delegationsTo]
  · intro ops op part
    have further := part.trans (List.sublist_append_left ops [op])
    cases op with
    | delegation dlg =>
      obtain ⟨deps, -, ⟨same, -⟩ | ⟨same, -⟩⟩ := takeDelegation_cases vk (run vk order ops) dlg
      · rw [take, same]
        exact further
      · rw [take, same, delegationsTo_enlist]
        split
        · rw [List.map_append]
          exact part.append (List.Sublist.refl _)
        · exact further
    | revocation rev =>
      rw [take, takeRevocation]
      split
      · rw [delegationsTo_applyRevocation (playKeyed_run vk order ops)]
        split
        · exact (List.filter_sublist.map _).trans further
        · exact further
      · exact further

end Rebuild

/-! ### Groups -/

section Groups

variable {group : Group T}

theorem mem_of_precedes_reverse {α : Type} {sorted first last : List α} {a b : α} (nodup : sorted.Nodup)
    (precedes : Precedes sorted a b) (split : sorted.reverse = first ++ a :: last) : b ∈ first := by
  obtain ⟨i, j, less, atI, atJ⟩ := precedes
  have whole : sorted = last.reverse ++ a :: first.reverse := by
    rw [← List.reverse_reverse sorted, split]
    simp
  have atLast : sorted[last.reverse.length]? = some a := by
    rw [whole, List.getElem?_append_right (Nat.le_refl _), Nat.sub_self]
    rfl
  obtain ⟨bound, -⟩ := List.getElem?_eq_some_iff.mp atI
  have index : i = last.reverse.length := (List.getElem?_inj bound nodup).mp (atI.trans atLast.symm)
  rw [whole, List.getElem?_append_right (by omega), List.getElem?_cons,
    if_neg (by omega : ¬ j - last.reverse.length = 0)] at atJ
  exact List.mem_reverse.mp (List.mem_of_getElem? atJ)

variable {admits : List (MembershipOperation T) → GroupState T → MembershipOperation T → Prop}
  {state : GroupState T}

theorem GroupState.proof_of_checkDelegation {dlg proof : SignedDelegation T}
    (checked : state.checkDelegation dlg = .ok ()) (given : dlg.payload.proof = some proof) :
    dlg.payload.can ≤ proof.payload.can ∧ dlg.issuer = proof.payload.delegate.id := by
  have lineage : checkDelegationLineage dlg.payload.can dlg (proof :: proof.proofLineage) = .ok () := by
    rw [← SignedDelegation.proofLineage_of_proof given]
    rw [checkDelegation, given] at checked
    by_cases subject : dlg.subjectId = state.id
    · simpa [subject, bind, Except.bind] using checked
    · simp [subject, bind, Except.bind, throw, throwThe, MonadExceptOf.throw] at checked
  rw [checkDelegationLineage] at lineage
  by_cases less : proof.payload.can < dlg.payload.can
  · simp [less, throw, throwThe, MonadExceptOf.throw] at lineage
  · by_cases issuer : dlg.issuer = proof.payload.delegate.id
    · exact ⟨le_of_not_gt less, issuer⟩
    · simp [less, issuer, throw, throwThe, MonadExceptOf.throw] at lineage

variable [DecidableEq T]

theorem GroupState.Grown.attenuated (grown : Grown hash admits ops state) : Attenuated ops := by
  induction grown with
  | start nonempty roots =>
    intro dlg proof member given
    obtain ⟨dlg', listed, same⟩ := List.mem_map.mp member
    obtain rfl := MembershipOperation.delegation.inj same
    simp [(roots dlg' listed).1] at given
  | add _ _ _ accepted ih =>
    intro dlg proof member given
    rcases List.mem_append.mp member with old | new
    · exact ih dlg proof old given
    · obtain rfl := List.mem_singleton.mp new
      exact proof_of_checkDelegation (add_ok hash accepted).1 given

theorem GroupState.Grown.lawful (grown : GroupState.Grown hash admits ops state)
    (identified : GroupState.Identified hash ops) :
    Lawful state.id ops where
  signatures := identified.signature
  closed := grown.closed
  attenuated := grown.attenuated
  rooted dlg here root := by
    rw [← SignedDelegation.subjectId_of_root root]
    exact GroupState.subjectId_of_check (grown.checked _ here)
  proofAbove := grown.proofAbove identified
  own rev here := (GroupState.checkRevocation_ok (grown.checked _ here)).1

theorem GroupState.Grown.replay (grown : GroupState.Grown hash admits ops state)
    (identified : GroupState.Identified hash ops)
    (once : GroupState.OncePerPayload ops) (order : HashOrder T) :
    Replay ops (Group.rebuildOrder hash order state) := by
  have sorts := grown.sorts identified order
  have finds (op : MembershipOperation T) : state.Finds op ↔ op ∈ ops :=
    ⟨(grown.belongs identified).member op, (grown.sound identified once).finds op⟩
  have reversed : Group.rebuildOrder hash order state = (state.sortedOps hash order).reverse := rfl
  have mem (op : MembershipOperation T) : op ∈ (state.sortedOps hash order).reverse ↔ op ∈ ops := by
    rw [List.mem_reverse, sorts.complete, finds]
  rw [reversed]
  refine ⟨mem, List.nodup_reverse.mpr sorts.once, fun first op last split before refers => ?_,
    fun first dlg last split rev known given ahead => ?_⟩
  · have here : op ∈ ops := (mem op).mp (by rw [split]; simp)
    exact mem_of_precedes_reverse sorts.once (sorts.parents op ((finds op).mpr here) before refers) split
  · have here : .delegation dlg ∈ ops := (mem _).mp (by rw [split]; simp)
    have exact := GroupState.exploreHeads_exact grown.within grown.closed identified order
    obtain ⟨noted, found, given', precedes⟩ := exact.exists_revocation (grown.belongs identified) ((finds _).mpr here)
      ((finds _).mpr known) given
    rw [← GroupState.sortedOps_eq] at precedes
    refine mem_of_precedes_reverse sorts.once ?_ split
    rcases ahead rev noted known ((finds _).mp found) rfl (Option.some.inj (given'.symm.trans given)) with rfl | reaches
    · exact precedes
    · rcases sorts.of_reaches ((finds _).mpr here) reaches with same | ⟨-, earlier⟩
      · exact nomatch same
      · exact earlier

/-- **A rebuild lists a supported delegation exactly if it is not revoked.** -/
theorem Group.Grown.listed_rebuild_iff (grown : Group.Grown hash ops group)
    (identified : GroupState.Identified hash ops) (once : GroupState.OncePerPayload ops) (order : HashOrder T)
    {dlg : SignedDelegation T} (here : .delegation dlg ∈ ops) (support : SupportedIn ops group.state.id dlg) :
    dlg ∈ (Group.rebuild hash order group).members.delegationsTo dlg.payload.delegate.id ↔ Unrevoked ops dlg := by
  have replay := grown.state.replay identified once order
  have sustained : Rebuild.Sustained _ ops _ (Rebuild.run group.state.id order (rebuildOrder hash order group.state)) :=
    Rebuild.sustained_run (grown.state.lawful identified) replay
  have same : Unrevoked (rebuildOrder hash order group.state) dlg ↔ Unrevoked ops dlg := by
    simp only [Unrevoked, replay.mem]
  rw [← same]
  constructor
  · intro listed
    by_contra revoked
    exact (sustained.out dlg support revoked).2 _ listed
  · exact fun unrevoked => (sustained.kept dlg support ((replay.mem _).mpr here) unrevoked).2.2

theorem Group.Grown.not_listed_of_barred (grown : Group.Grown hash ops group)
    (identified : GroupState.Identified hash ops) (once : GroupState.OncePerPayload ops) (order : HashOrder T)
    {dlg : SignedDelegation T} (here : .delegation dlg ∈ ops)
    (barred : Barred ops group.state.id (SupportedIn ops group.state.id) dlg) (id : Identifier) :
    dlg ∉ (Group.rebuild hash order group).members.delegationsTo id :=
  (Rebuild.barred_split (grown.state.lawful identified) (grown.state.replay identified once order)
    (List.append_nil _).symm here barred).2 id

theorem Group.Grown.listed_iff_unrevoked (grown : Group.Grown hash ops group)
    (identified : GroupState.Identified hash ops) (once : GroupState.OncePerPayload ops) {dlg : SignedDelegation T}
    (here : .delegation dlg ∈ ops) (support : SupportedIn ops group.state.id dlg) :
    dlg ∈ group.members.delegationsTo dlg.payload.delegate.id ↔ Unrevoked ops dlg := by
  obtain ⟨order, rebuilt⟩ := grown.rebuilt
  rw [← grown.listed_rebuild_iff identified once order here support, ← rebuilt]

theorem Group.Grown.nodup_delegationsTo (grown : Group.Grown hash ops group)
    (identified : GroupState.Identified hash ops) (id : Identifier) : (group.members.delegationsTo id).Nodup := by
  obtain ⟨order, rebuilt⟩ := grown.rebuilt
  have members : group.members = (Rebuild.run group.state.id order (rebuildOrder hash order group.state)).members :=
    congrArg Group.members rebuilt
  rw [members]
  refine List.Nodup.of_map MembershipOperation.delegation
    ((Rebuild.delegationsTo_sublist group.state.id order _ id).nodup ?_)
  exact List.nodup_reverse.mpr (grown.state.sorts identified order).once

end Groups

end

end KeyhiveEval.Core
