/-
**Peers with the same operations agree on the members.**

The heads are the same set on every peer in effect: what is reachable from them is what was accepted. All that
comes after the walk from the heads is computed from ordered maps, with two exceptions. One is the
cascade of a revocation, whose result does not depend on the order. The other is the map of
revocations by which a delegation is sorted after the revocation of its proof: of several
revocations it keeps the one that the walk met last.

* `RevokedOnce` — no proof of a delegation is revoked twice.
* **`Group.members_converge`** — where no payload is signed twice and no proof is revoked twice, two
  groups with the same operations have the same members and revocations.
* `Sample.peers_disagree` — a proof that is revoked twice, and two orders of the hash maps.
-/

import KeyhiveEval.Core.Exploring
import KeyhiveEval.Core.Rebuilding
import KeyhiveEval.Core.GroupSample

namespace KeyhiveEval.Core

open Std Beekem OrderedSets

section

variable {T : Type} {hash : MembershipOperation T → MembershipDigest} {ops : List (MembershipOperation T)}

/-- No delegation that is the proof of another is revoked by two revocations. -/
def RevokedOnce (ops : List (MembershipOperation T)) : Prop :=
  ∀ dlg proof, .delegation dlg ∈ ops → dlg.payload.proof = some proof →
    ∀ first second, .revocation first ∈ ops → .revocation second ∈ ops →
      first.payload.revoke.signature = proof.signature →
      second.payload.revoke.signature = proof.signature → first = second

/-! ### The order of a rebuild -/

namespace Explored

variable {first second : Explored T}

/-- Two walks over the same operations collect the same. -/
theorem Exact.allOps_eq (one : first.Exact hash (· ∈ ops)) (two : second.Exact hash (· ∈ ops)) :
    first.allOps = second.allOps := by
  have sub {first second : Explored T} (one : first.Exact hash (· ∈ ops))
      (two : second.Exact hash (· ∈ ops)) (digest : MembershipDigest)
      (entry : MembershipOperation T × List MembershipDigest) (found : first.allOps[digest]? = some entry) :
      second.allOps[digest]? = some entry := by
    obtain ⟨rfl, parents, member⟩ := one.keyed digest entry found
    rw [(two.met entry.1).mpr member, ← parents]
  exact ExtTreeMap.ext_getElem? fun digest => Option.ext fun entry =>
    ⟨sub one two digest entry, sub two one digest entry⟩

/-- Two walks note the same revocation of a proof: there is only one. -/
theorem Exact.revokedDependencies_eq (once : RevokedOnce ops) (one : first.Exact hash (· ∈ ops))
    (two : second.Exact hash (· ∈ ops)) {dlg proof : SignedDelegation T} (member : .delegation dlg ∈ ops)
    (given : dlg.payload.proof = some proof) :
    first.revokedDependencies[proof.signature]? = second.revokedDependencies[proof.signature]? := by
  have sub {first second : Explored T} (one : first.Exact hash (· ∈ ops))
      (two : second.Exact hash (· ∈ ops)) (digest : MembershipDigest)
      (found : first.revokedDependencies[proof.signature]? = some digest) :
      second.revokedDependencies[proof.signature]? = some digest := by
    obtain ⟨rev, known, rfl, same⟩ := one.revoked _ _ found
    have noted := two.noted rev known
    rw [← same] at noted
    obtain ⟨digest', found'⟩ := mem_iff_exists.mp noted
    obtain ⟨rev', known', rfl, same'⟩ := two.revoked _ _ found'
    rw [found', once dlg proof member given rev rev' known known' same.symm same'.symm]
  exact Option.ext fun digest => ⟨sub one two digest, sub two one digest⟩

theorem Exact.revocationOfProof_eq (once : RevokedOnce ops) (one : first.Exact hash (· ∈ ops))
    (two : second.Exact hash (· ∈ ops)) {op : MembershipOperation T} (member : op ∈ ops) :
    first.revocationOfProof op = second.revocationOfProof op := by
  cases op with
  | revocation rev => rfl
  | delegation dlg =>
    rw [revocationOfProof, revocationOfProof, one.allOps_eq two]
    cases given : dlg.payload.proof with
    | none => rfl
    | some proof =>
      simp only [bind, Option.bind_some]
      rw [one.revokedDependencies_eq once two member given]

theorem Exact.addOp_eq (once : RevokedOnce ops) (one : first.Exact hash (· ∈ ops))
    (two : second.Exact hash (· ∈ ops)) (adj : Adjacencies)
    {entry : MembershipDigest × MembershipOperation T × List MembershipDigest}
    (listed : entry ∈ first.allOps.toList) : first.addOp adj entry = second.addOp adj entry := by
  have member := (one.keyed entry.1 entry.2 (holds_of_mem_toList listed)).2.2
  rw [addOp, addOp, one.revocationOfProof_eq once two member, one.allOps_eq two]

/-- **Two walks over the same operations end in the same order.** -/
theorem Exact.dependencies_eq (once : RevokedOnce ops) (one : first.Exact hash (· ∈ ops))
    (two : second.Exact hash (· ∈ ops)) : first.dependencies = second.dependencies := by
  have adjacencies : first.adjacencies = second.adjacencies := by
    rw [Explored.adjacencies, Explored.adjacencies, ← one.allOps_eq two]
    exact List.foldl_ext _ _ _ fun adj entry listed => one.addOp_eq once two adj listed
  rw [dependencies, dependencies, adjacencies, one.allOps_eq two]

end Explored

/-- **The operations of a rebuild and their order** are the same in every state with the same
operations, whatever the order of the hash maps. -/
theorem GroupState.Sound.rebuildOrder_eq [DecidableEq T] {state state' : GroupState T}
    (sound : Sound hash ops state) (sound' : Sound hash ops state') (identified : Identified hash ops)
    (once : RevokedOnce ops) (order order' : HashOrder T) :
    Group.rebuildOrder hash order state = Group.rebuildOrder hash order' state' := by
  have one := sound.exploreHeads_exact identified order
  have two := sound'.exploreHeads_exact identified order'
  rw [Group.rebuildOrder, Group.rebuildOrder, reverseTopsort, reverseTopsort]
  simp only [one.dependencies_eq once two, one.allOps_eq two]

/-! ### The operations of a rebuild -/

namespace Rebuild

variable {state : Rebuild T}

/-- **The order of the hash sets does not matter to a revocation.** -/
theorem applyRevocation_eq (keyed : PlayKeyed state.dlgsInPlay) (order order' : HashOrder T)
    (rev : SignedRevocation T) : state.applyRevocation order rev = state.applyRevocation order' rev := by
  have one : CascadeSpec state _ (state.cascade order rev.payload.revoke.signature) := cascade_spec keyed
  have two : CascadeSpec state _ (state.cascade order' rev.payload.revoke.signature) := cascade_spec keyed
  have played : (state.cascade order rev.payload.revoke.signature).dlgsInPlay
      = (state.cascade order' rev.payload.revoke.signature).dlgsInPlay := by
    refine ExtTreeMap.ext_getElem? fun sig => ?_
    by_cases falls : Falls state.reverseDlgDepMap state.dlgsInPlay rev.payload.revoke.signature sig
    · rw [ExtTreeMap.getElem?_eq_none (one.gone sig falls), ExtTreeMap.getElem?_eq_none (two.gone sig falls)]
    · rw [one.stays sig falls, two.stays sig falls]
  have revoked : (state.cascade order rev.payload.revoke.signature).revokedDlgs
      = (state.cascade order' rev.payload.revoke.signature).revokedDlgs :=
    ExtTreeSet.ext_mem fun sig => (one.revoked sig).trans (two.revoked sig).symm
  have dropped : (state.cascade order rev.payload.revoke.signature).toDrop
      = (state.cascade order' rev.payload.revoke.signature).toDrop := one.toDrop.trans two.toDrop.symm
  simp only [applyRevocation, played, revoked, dropped]

theorem take_eq (keyed : PlayKeyed state.dlgsInPlay) (vk : Identifier) (order order' : HashOrder T)
    (op : MembershipOperation T) : state.take vk order op = state.take vk order' op := by
  cases op with
  | delegation dlg => rfl
  | revocation rev => rw [take, take, takeRevocation, takeRevocation, applyRevocation_eq keyed order order']

theorem run_eq (vk : Identifier) (order order' : HashOrder T) (ops : List (MembershipOperation T)) :
    run vk order ops = run vk order' ops := by
  induction ops using List.reverseRecOn with
  | nil => rfl
  | append_singleton ops op ih =>
    rw [run_snoc, run_snoc, take_eq (playKeyed_run vk order ops) vk order order' op, ih]

end Rebuild

/-! ### Groups -/

variable {ops' : List (MembershipOperation T)} {state : GroupState T}

theorem GroupState.Sound.congr
    (sound : Sound hash ops state) (same : ∀ op, op ∈ ops ↔ op ∈ ops') : Sound hash ops' state where
  keyed := sound.keyed
  revKeyed := sound.revKeyed
  within head isHead := (same head).mp (sound.within head isHead)
  closed op member before refers := (same before).mp (sound.closed op ((same op).mpr member) before refers)
  nonempty := sound.nonempty
  finds op member := sound.finds op ((same op).mpr member)

/-- Every operation of a group is about the group. -/
theorem GroupState.Grown.subjectId_eq [DecidableEq T]
    {admits : List (MembershipOperation T) → GroupState T → MembershipOperation T → Prop}
    (grown : Grown hash admits ops state) : ∀ op ∈ ops, op.subjectId = state.id := by
  induction grown with
  | start nonempty roots =>
    intro op member
    obtain ⟨dlg, listed, rfl⟩ := List.mem_map.mp member
    obtain ⟨root, -, own⟩ := roots dlg listed
    exact (SignedDelegation.subjectId_of_root root).trans own
  | add _ _ _ accepted ih =>
    obtain ⟨checked, rfl⟩ := add_ok hash accepted
    rw [after_id]
    intro op' member
    rcases List.mem_append.mp member with old | new
    · exact ih op' old
    · rw [List.mem_singleton.mp new]
      exact subjectId_of_check checked

/-- Groups with an operation in common have one key. -/
theorem Group.Grown.id_eq [DecidableEq T] {group group' : Group T}
    (grown : Grown hash ops group) (grown' : Grown hash ops' group') (same : ∀ op, op ∈ ops ↔ op ∈ ops') :
    group.state.id = group'.state.id := by
  obtain ⟨op, member⟩ := grown.state.exists_mem
  rw [← grown.state.subjectId_eq op member, ← grown'.state.subjectId_eq op ((same op).mp member)]

/-- **Group membership converges:** two groups that have received the same operations, in whatever
orders and with whatever orders of the hash maps, have the same members and the same
revocations in effect, where no payload is signed twice and no proof is revoked twice. -/
theorem Group.members_converge [DecidableEq T] {ops' : List (MembershipOperation T)} {group group' : Group T}
    (grown : Grown hash ops group) (grown' : Grown hash ops' group')
    (same : ∀ op, op ∈ ops ↔ op ∈ ops') (identified : GroupState.Identified hash ops)
    (payloads : GroupState.OncePerPayload ops) (once : RevokedOnce ops) :
    group.members = group'.members ∧ group.activeRevocations = group'.activeRevocations := by
  have sound := grown.state.sound identified payloads
  have sound' : GroupState.Sound hash ops group'.state :=
    (grown'.state.sound (identified.mono fun op => (same op).mpr) fun first second here there =>
      payloads first second ((same _).mpr here) ((same _).mpr there)).congr fun op => (same op).symm
  obtain ⟨order, rebuilt⟩ := grown.rebuilt
  obtain ⟨order', rebuilt'⟩ := grown'.rebuilt
  have result : Rebuild.run group.state.id order (rebuildOrder hash order group.state)
      = Rebuild.run group'.state.id order' (rebuildOrder hash order' group'.state) := by
    rw [sound.rebuildOrder_eq sound' identified once order order', grown.id_eq grown' same]
    exact Rebuild.run_eq _ _ _ _
  rw [rebuilt, rebuilt']
  exact ⟨congrArg Rebuild.members result, congrArg Rebuild.activeRevocations result⟩

end

namespace Sample

open GroupState

def revokeEditor : MembershipOperation Unit := .revocation (revocation 21 1 editor (some editor))

theorem peers_agree :
    ∃ group group', run .sorted admin [.delegation editor, .delegation coeditor, revokeEditor] = .ok group ∧
      run .reversed admin [.delegation coeditor, .delegation editor, revokeEditor] = .ok group' ∧
      group.members = group'.members ∧ group.activeRevocations = group'.activeRevocations := by
  obtain ⟨group, ran, -⟩ := group_of_view (by decide +kernel :
    (run .sorted admin [.delegation editor, .delegation coeditor, revokeEditor]).map summary
      = .ok ([(1, [10]), (5, [14])], [21]))
  obtain ⟨group', ran', -⟩ := group_of_view (by decide +kernel :
    (run .reversed admin [.delegation coeditor, .delegation editor, revokeEditor]).map summary
      = .ok ([(1, [10]), (5, [14])], [21]))
  have identified : Identified hash
      [.delegation admin, .delegation editor, .delegation coeditor, revokeEditor] :=
    identified_of_nodup (by decide +kernel) (by decide +kernel)
  have inOrder {first second : SignedDelegation Unit} (one : first.payload.proof = some admin)
      (two : second.payload.proof = some admin) (none : first.payload.afterRevocations = [])
      (none' : second.payload.afterRevocations = []) (there : editor = first ∨ editor = second) :
      InOrder [.delegation admin] [.delegation first, .delegation second, revokeEditor] := by
    simp [InOrder, MembershipOperation.afterAuth, one, two, none, none', revokeEditor, revocation, there]
  refine ⟨group, group', ran, ran', Group.members_converge
    (grown_of_run (inOrder rfl rfl rfl rfl (.inl rfl)) ran)
    (grown_of_run (inOrder rfl rfl rfl rfl (.inr rfl)) ran')
    (fun op => ((List.Perm.swap _ _ _).cons _).mem_iff) identified
    (oncePerPayload_of_signatures identified (by decide +kernel)) ?_⟩
  intro dlg proof member given first second here there
  simp [revokeEditor] at here there
  simp [here, there]

/-- The editor's delegation is taken back twice, with two proofs; the coeditor's once. -/
def takenBackTwice : List (MembershipOperation Unit) :=
  [.delegation editor, .delegation coeditor, .delegation subeditor, .delegation assistant,
    .revocation (revocation 21 1 editor (some editor)), .revocation (revocation 23 1 editor (some admin)),
    .revocation (revocation 22 1 coeditor (some coeditor))]

theorem takenBackTwice_inOrder : InOrder [.delegation admin] takenBackTwice := by
  simp [takenBackTwice, InOrder, MembershipOperation.afterAuth, editor, coeditor, subeditor, assistant, admin,
    delegation, revocation]

/-- **Peers disagree.** Two peers receive the same operations in the same order; their hash maps differ.
On one the assistant is a member, on the other they are not. -/
theorem peers_disagree :
    ∃ (ops : List (MembershipOperation Unit)) (group group' : Group Unit),
      Group.Grown hash ops group ∧ Group.Grown hash ops group' ∧
      Identified hash ops ∧ OncePerPayload ops ∧
      ¬ (group.members = group'.members ∧ group.activeRevocations = group'.activeRevocations) := by
  obtain ⟨group, ran, shown⟩ := group_of_view
    (by decide +kernel : (run .sorted admin takenBackTwice).map summary
      = .ok ([(1, [10]), (3, [12]), (4, [13])], [21, 22, 23]))
  obtain ⟨group', ran', shown'⟩ := group_of_view
    (by decide +kernel : (run .reversed admin takenBackTwice).map summary
      = .ok ([(1, [10]), (3, [12])], [21, 22, 23]))
  have grown := grown_of_run takenBackTwice_inOrder ran
  have grown' := grown_of_run takenBackTwice_inOrder ran'
  have identified : Identified hash (.delegation admin :: takenBackTwice) :=
    identified_of_nodup (by decide +kernel) (by decide +kernel)
  refine ⟨_, group, group', grown, grown', identified,
    oncePerPayload_of_signatures identified (by decide +kernel), fun same => ?_⟩
  have equal : summary group = summary group' := by rw [summary, summary, same.1, same.2]
  rw [shown, shown'] at equal
  exact absurd equal (by decide)

end Sample

end KeyhiveEval.Core
