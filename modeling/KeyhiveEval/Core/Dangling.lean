/-
**No member without authority.**

After a rebuild every listed delegation should be in force: not revoked, and issued by the group's key or by
a member with as much access. Two parts of the rebuild break this. A delegation whose proof is dead is admitted
on account of the issuer of the proof, not of its own issuer; and what stands under a revoked delegation leaves
play but stays listed.

* `Routed` — the issuer of a delegation has it in force by some route.
* **`Group.noDangling_iff`** — where all delegations are supported or barred, every listed delegation is in force exactly
  if every supported delegation that is not revoked and stands under a revoked one is routed.
* `Sample.subeditor_dangles` — the editor's delegation is revoked, and the subeditor stays.
-/

import KeyhiveEval.Core.Support

namespace KeyhiveEval.Core

open Std Beekem OrderedSets

section

variable {T : Type} {hash : MembershipOperation T → MembershipDigest} {ops : List (MembershipOperation T)}

/-- **Every listed delegation is in force:** no revocation in effect revokes it, and it is issued by the
group's own key, or by a member to whom a delegation of at least its access is listed. -/
def NoDangling (vk : Identifier) (members : Members T)
    (activeRevocations : ExtTreeMap Signature (SignedRevocation T)) : Prop :=
  ∀ id, ∀ dlg ∈ members.delegationsTo id,
    (∀ (sig : Signature) (rev : SignedRevocation T), activeRevocations[sig]? = some rev →
      rev.payload.revoke.signature ≠ dlg.signature) ∧
    (dlg.issuer = vk ∨
      ∃ route ∈ members.delegationsTo dlg.issuer, dlg.payload.can ≤ route.payload.can)

/-- **A delegation has a route:** it is issued by the group's own key, or some supported delegation to its issuer that
nobody revokes gives at least its access. -/
def Routed (ops : List (MembershipOperation T)) (vk : Identifier) (dlg : SignedDelegation T) : Prop :=
  dlg.issuer = vk ∨ ∃ route, .delegation route ∈ ops ∧ SupportedIn ops vk route ∧ Unrevoked ops route ∧
    route.payload.delegate.id = dlg.issuer ∧ dlg.payload.can ≤ route.payload.can

/-- The revocations in effect are among those that were taken. -/
theorem Rebuild.mem_of_active {vk : Identifier} {order : HashOrder T} {taken : List (MembershipOperation T)}
    {sig : Signature} {rev : SignedRevocation T} (active : (run vk order taken).activeRevocations[sig]? = some rev) :
    .revocation rev ∈ taken := by
  induction taken using List.reverseRecOn with
  | nil => simp [run, start] at active
  | append_singleton taken op ih =>
    rw [run, List.foldl_append, List.foldl_cons, List.foldl_nil] at active
    cases op with
    | delegation dlg =>
      have same : ((run vk order taken).takeDelegation vk dlg).activeRevocations =
          (run vk order taken).activeRevocations := by
        obtain ⟨deps, -, ⟨same, -⟩ | ⟨same, -⟩⟩ := takeDelegation_cases vk (run vk order taken) dlg
        · rw [same]
        · rw [same, enlist]
          split <;> rfl
      exact List.mem_append_left _ (ih (same ▸ active))
    | revocation new =>
      rw [take, takeRevocation] at active
      split at active
      · change ((run vk order taken).activeRevocations.insert _ _)[sig]? = _ at active
        rw [getElem?_insert_iff] at active
        split at active
        · rw [Option.some.inj active]
          exact List.mem_append_right _ (List.mem_singleton_self _)
        · exact List.mem_append_left _ (ih active)
      · exact List.mem_append_left _ (ih active)

section Groups

variable [DecidableEq T] {group : Group T}

/-- **When no authority dangles after a rebuild.** Where all delegations are supported or barred, what is listed is what
is supported and not revoked, so every listed delegation is in force exactly if the revocation of its proof leaves it a
route. -/
theorem Group.noDangling_iff (grown : Group.Grown hash ops group) (identified : GroupState.Identified hash ops)
    (once : GroupState.OncePerPayload ops) (order : HashOrder T)
    (settled : ∀ dlg, .delegation dlg ∈ ops → SupportedIn ops group.state.id dlg ∨
      Barred ops group.state.id (SupportedIn ops group.state.id) dlg) :
    NoDangling group.state.id (rebuild hash order group).members (rebuild hash order group).activeRevocations ↔
      ∀ dlg proof, .delegation dlg ∈ ops → SupportedIn ops group.state.id dlg → Unrevoked ops dlg →
        dlg.payload.proof = some proof → ¬ Unrevoked ops proof → Routed ops group.state.id dlg := by
  have replay := grown.state.replay identified once order
  have lawful := grown.state.lawful identified
  have sustained : Rebuild.Sustained _ ops _ (Rebuild.run group.state.id order (rebuildOrder hash order group.state)) :=
    Rebuild.sustained_run lawful replay
  have listed (id : Identifier) (dlg : SignedDelegation T) :
      dlg ∈ (rebuild hash order group).members.delegationsTo id ↔ .delegation dlg ∈ ops ∧
        dlg.payload.delegate.id = id ∧ SupportedIn ops group.state.id dlg ∧ Unrevoked ops dlg := by
    constructor
    · intro member
      obtain ⟨known, rfl⟩ := sustained.listed id dlg member
      have here := (replay.mem _).mp known
      rcases settled dlg here with support | barred
      · exact ⟨here, rfl, support, (grown.listed_rebuild_iff identified once order here support).mp member⟩
      · exact absurd member (grown.not_listed_of_barred identified once order here barred _)
    · rintro ⟨here, rfl, support, unrevoked⟩
      exact (grown.listed_rebuild_iff identified once order here support).mpr unrevoked
  constructor
  · intro none dlg proof here support unrevoked _ _
    obtain ⟨-, own | ⟨route, member, enough⟩⟩ := none _ dlg ((listed _ dlg).mpr ⟨here, rfl, support, unrevoked⟩)
    · exact .inl own
    · obtain ⟨known, issuer, supported, stays⟩ := (listed _ route).mp member
      exact .inr ⟨route, known, supported, stays, issuer, enough⟩
  · intro routed id dlg member
    obtain ⟨here, -, support, unrevoked⟩ := (listed id dlg).mp member
    refine ⟨fun sig rev active same => ?_, ?_⟩
    · have known : .revocation rev ∈ ops := (replay.mem _).mp (Rebuild.mem_of_active active)
      refine unrevoked rev known (lawful.eq_of_signature ?_ here same)
      exact lawful.closed _ known _ (by simp [MembershipOperation.afterAuth])
    · have route : Routed ops group.state.id dlg := by
        cases given : dlg.payload.proof with
        | none => exact .inl (lawful.rooted dlg here given)
        | some proof =>
          by_cases stays : Unrevoked ops proof
          · obtain ⟨enough, issuer⟩ := lawful.attenuated dlg proof here given
            have above : SupportedIn ops group.state.id proof := (support.link (by
              rw [SignedDelegation.proofLineage_of_proof given]
              exact List.mem_cons_self)).1
            exact .inr ⟨proof, lawful.closed _ here _ (mem_afterAuth_of_proof given), above, stays, issuer.symm, enough⟩
          · exact routed dlg proof here support unrevoked given stays
      obtain own | ⟨route, known, supported, stays, issuer, enough⟩ := route
      · exact .inl own
      · exact .inr ⟨route, (listed _ route).mpr ⟨known, issuer, supported, stays⟩, enough⟩

end Groups

end

namespace Sample

open GroupState

/-- The group's own key lets the editor edit, too. -/
def secondRoute : SignedDelegation Unit := delegation 15 0 2 .edit none

/-- The editor's delegation is taken back, and the editor has another; the subeditor's stands under the first. -/
def editorStays : List (MembershipOperation Unit) :=
  [.delegation editor, .delegation secondRoute, .delegation subeditor,
    .revocation (revocation 21 1 editor (some editor))]

theorem noDangling_after_editorStays :
    ∃ group, run .sorted admin editorStays = .ok group ∧ principal 3 ∈ group.members ∧
      NoDangling group.state.id (Group.rebuild hash .sorted group).members
        (Group.rebuild hash .sorted group).activeRevocations := by
  obtain ⟨group, ran, shown⟩ := group_of_view (by decide +kernel :
    (run .sorted admin editorStays).map (fun group => group.members.contains (principal 3)) = .ok true)
  have inOrder : InOrder [.delegation admin] editorStays := by
    simp [editorStays, InOrder, MembershipOperation.afterAuth, editor, secondRoute, subeditor, delegation, revocation]
  have grown := grown_of_run inOrder ran
  have identified : Identified hash (.delegation admin :: editorStays) :=
    identified_of_nodup (by decide +kernel) (by decide +kernel)
  have once : OncePerPayload (.delegation admin :: editorStays) :=
    oncePerPayload_of_signatures identified (by decide +kernel)
  have unrevoked {dlg : SignedDelegation Unit} (other : dlg.signature ≠ editor.signature) :
      Unrevoked (.delegation admin :: editorStays) dlg := by
    rintro rev known rfl
    simp only [editorStays, List.mem_cons, reduceCtorEq, MembershipOperation.revocation.injEq, List.not_mem_nil,
      false_or, or_false] at known
    exact other (known ▸ rfl)
  refine ⟨group, ran, ExtTreeMap.contains_iff_mem.mp shown,
    (Group.noDangling_iff grown identified once .sorted fun dlg known => .inl ?_).mpr
      fun dlg proof known _ _ given gone => ?_⟩
  · simp only [editorStays, List.mem_cons, MembershipOperation.delegation.injEq, reduceCtorEq, List.not_mem_nil,
      or_false] at known
    rcases known with rfl | rfl | rfl | rfl
    · exact .root rfl
    · exact .under rfl (unrevoked (by decide +kernel)) (.root rfl)
    · exact .root rfl
    · refine .past rfl (fun rev other first second _ _ => .inl ?_) rfl (unrevoked (by decide +kernel)) (.root rfl)
      simp only [editorStays, List.mem_cons, reduceCtorEq, MembershipOperation.revocation.injEq, List.not_mem_nil,
        false_or, or_false] at first second
      rw [first, second]
  · simp only [editorStays, List.mem_cons, MembershipOperation.delegation.injEq, reduceCtorEq, List.not_mem_nil,
      or_false] at known
    rcases known with rfl | rfl | rfl | rfl
    · cases given
    · cases given
      exact absurd (unrevoked (by decide +kernel)) gone
    · cases given
    · exact .inr ⟨secondRoute, by simp [editorStays], .root rfl, unrevoked (by decide +kernel), rfl, by decide⟩

/-- The editor's delegation is taken back; the subeditor's stands under it. -/
def editorLeaves : List (MembershipOperation Unit) :=
  [.delegation editor, .delegation subeditor, .revocation (revocation 21 1 editor (some editor))]

/-- **The subeditor dangles:** the delegation to them is listed, and the editor, who issued it, is no
member any more. -/
theorem subeditor_dangles :
    ∃ (ops : List (MembershipOperation Unit)) (group : Group Unit) (order : HashOrder Unit),
      Group.Grown hash ops group ∧ Identified hash ops ∧
      ¬ NoDangling group.state.id (Group.rebuild hash order group).members
        (Group.rebuild hash order group).activeRevocations := by
  obtain ⟨group, ran, shown⟩ := group_of_view (by decide +kernel :
    (run .sorted admin editorLeaves).map (fun group => (group.state.id,
      (group.members.delegationsTo (principal 3)).map SignedDelegation.issuer,
      (group.members.delegationsTo (principal 2)).length)) = .ok (principal 0, [principal 2], 0))
  simp only [Prod.mk.injEq, List.length_eq_zero_iff] at shown
  obtain ⟨own, listed, none⟩ := shown
  have inOrder : InOrder [.delegation admin] editorLeaves := by
    simp [editorLeaves, InOrder, MembershipOperation.afterAuth, editor, subeditor, delegation, revocation]
  have grown := grown_of_run inOrder ran
  obtain ⟨order, rebuilt⟩ := grown.rebuilt
  refine ⟨_, group, order, grown, identified_of_nodup (by decide +kernel) (by decide +kernel), fun all => ?_⟩
  rw [← rebuilt] at all
  obtain ⟨dlg, member, issuer⟩ := List.mem_map.mp (listed ▸ List.mem_cons_self : principal 2 ∈
    (group.members.delegationsTo (principal 3)).map SignedDelegation.issuer)
  obtain ⟨-, ⟨same⟩ | ⟨route, found, -⟩⟩ := all (principal 3) dlg member
  · rw [own, issuer] at same
    exact absurd same (by decide +kernel)
  · rw [issuer, none] at found
    exact List.not_mem_nil found

end Sample

end KeyhiveEval.Core
