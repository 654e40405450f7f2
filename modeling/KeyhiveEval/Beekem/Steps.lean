/-
**What one call can do to a replica.**

`Cgka.Step` lists it once: a call that returns has changed keys and caches only, or it has made an
operation after a replay, or it has taken in an operation that was published. Merging a fork is apart
(`Cgka.Merges`). A call that returns an error has left the graph as it was. Every statement about the
operations of a run is derived from `moves_call`.
-/

import KeyhiveEval.Beekem.Calls

set_option linter.unusedSectionVars false

namespace KeyhiveEval.Beekem

open Std Stateful

namespace Cgka

/-- The group that two replicas belong to is the same. -/
structure SameGroup (cgka cgka' : Cgka) : Prop where
  docId : cgka'.docId = cgka.docId
  originalMember : cgka'.originalMember = cgka.originalMember
  initAddOp : cgka'.initAddOp = cgka.initAddOp

theorem SameGroup.refl (cgka : Cgka) : SameGroup cgka cgka := ⟨rfl, rfl, rfl⟩

theorem SameGroup.trans {first second third : Cgka} (once : SameGroup first second)
    (again : SameGroup second third) : SameGroup first third :=
  ⟨again.docId.trans once.docId, again.originalMember.trans once.originalMember,
    again.initAddOp.trans once.initAddOp⟩

theorem KeysOnly.sameGroup {cgka cgka' : Cgka} (keys : KeysOnly cgka cgka') :
    SameGroup cgka cgka' := by
  obtain ⟨_, _, _, rfl⟩ := keys
  exact ⟨rfl, rfl, rfl⟩

variable (S : Suite) {Cr : Type} [ContentRef Cr]

/-- An operation that was made here, after a replay: its payload, and the tree after it. -/
inductive Makes (mid : Cgka) : CgkaOperation → BeeKem → Prop
  | add {id : MemberId} {pk : ShareKey} {leafIndex : Nat} {tree : BeeKem}
      (pushes : mid.tree.pushLeaf id (.shareKey pk) = .ok (leafIndex, tree)) :
      Makes mid (.add id pk leafIndex mid.opsGraph.cgkaOpHeads.toList
        mid.opsGraph.addHeads.toList mid.docId) tree
  | remove {id : MemberId} {leafIdx : Nat} {removedKeys : List ShareKey} {tree : BeeKem}
      (several : mid.groupSize ≠ 1)
      (removes : mid.tree.removeId id = .ok ((leafIdx, removedKeys), tree)) :
      Makes mid (.remove id leafIdx removedKeys mid.opsGraph.cgkaOpHeads.toList mid.docId) tree
  | update {newPk : ShareKey} {newSk : ShareSecretKey} {csprng : Rng} {pcsKey : PcsKey}
      {newPath : PathChange} {tree : BeeKem}
      (encrypts : BeeKem.encryptPath S.toCrypto mid.ownerId newPk (mid.ownerSks.insert newPk newSk)
        csprng mid.tree = .ok (pcsKey, newPath) tree) :
      Makes mid (.update mid.ownerId newPath mid.opsGraph.cgkaOpHeads.toList mid.docId) tree

/-- **What a call that returns makes of a replica**, and the operation that it publishes. -/
inductive Step (w : World Cr) (cgka : Cgka) : Option SignedOp → Cgka → Prop
  | keys {cgka' : Cgka} (keys : KeysOnly cgka cgka') : Step w cgka none cgka'
  | make {mid cgka' : Cgka} {op : SignedOp} {tree : BeeKem}
      (replays : replayIfNeeded S cgka = .ok () mid) (makes : Makes S mid op.payload tree)
      (keys : KeysOnly { mid with tree, opsGraph := mid.opsGraph.addLocalOp S.hashOp op } cgka') :
      Step w cgka (some op) cgka'
  | follow {mid cgka' : Cgka} {op : SignedOp} (published : op ∈ w.published.map Prod.fst)
      (unknown : cgka.opsGraph.containsOpHash (S.hashOp op) = false)
      (known : cgka.opsGraph.containsPredecessors op.payload.predecessors = true)
      (follows : cgka.opsGraph.headsContainedIn op.payload.predecessors = true)
      (replays : replayIfNeeded S cgka = .ok () mid)
      (applies : applyOperation S op mid = .ok () cgka') : Step w cgka none cgka'
  | wait {op : SignedOp} (published : op ∈ w.published.map Prod.fst)
      (unknown : cgka.opsGraph.containsOpHash (S.hashOp op) = false)
      (known : cgka.opsGraph.containsPredecessors op.payload.predecessors = true)
      (concurrent : cgka.opsGraph.headsContainedIn op.payload.predecessors = false)
      (waits : cgka.pendingOpsForStructuralChange = true ∨ op.payload.isUpdate = false) :
      Step w cgka none { cgka with
        opsGraph := cgka.opsGraph.addOp S.hashOp op op.payload.predecessors
        pendingOpsForStructuralChange := true }
  | join {cgka' : Cgka} {op : SignedOp} (published : op ∈ w.published.map Prod.fst)
      (unknown : cgka.opsGraph.containsOpHash (S.hashOp op) = false)
      (known : cgka.opsGraph.containsPredecessors op.payload.predecessors = true)
      (concurrent : cgka.opsGraph.headsContainedIn op.payload.predecessors = false)
      (settled : cgka.pendingOpsForStructuralChange = false) (isUpdate : op.payload.isUpdate = true)
      (applies : applyOperation S op cgka = .ok () cgka') : Step w cgka none cgka'

def Merges (fork cgka cgka' : Cgka) : Prop :=
  ∃ result, rebuilt S (cgka.withFork fork) = .ok result ∧ cgka' = (cgka.withFork fork).takeOver result

/-- **What a call does** if it returns: a step, or a merge. -/
def Moves (w : World Cr) (call : Call Cr) (cgka : Cgka) (op : Option SignedOp) (cgka' : Cgka) :
    Prop :=
  Step S w cgka op cgka' ∨ op = none ∧ ∃ i fork, call = .merge i ∧ w.replicas[i]? = some fork ∧
    fork.ownerId = cgka.ownerId ∧ Merges S fork cgka cgka'

def Unmoved (cgka : Cgka) (fault : Fault) (cgka' : Cgka) : Prop :=
  ∀ error, fault = .err error → cgka'.opsGraph = cgka.opsGraph ∧ SameGroup cgka cgka'

/-- What a failed call leaves, unless its signer refuses: the replica or its replay, with other keys. -/
def Settled (cgka cgka' : Cgka) : Prop :=
  KeysOnly cgka cgka' ∨ ∃ mid, replayIfNeeded S cgka = .ok () mid ∧ KeysOnly mid cgka'

section Parts

variable {S} {cgka : Cgka} {fault : Fault}

theorem unmoved_of {cgka' : Cgka} (graph : cgka'.opsGraph = cgka.opsGraph)
    (group : SameGroup cgka cgka') : Unmoved cgka fault cgka' := fun _ _ => ⟨graph, group⟩

theorem unmoved_refl (fault : Fault) : Unmoved cgka fault cgka := unmoved_of rfl (.refl _)

variable {mid : Cgka}

theorem replayIfNeeded_frame (replays : replayIfNeeded S cgka = .ok () mid) :
    mid.opsGraph = cgka.opsGraph ∧ SameGroup cgka mid ∧ mid.ownerId = cgka.ownerId := by
  rw [replayIfNeeded_eq] at replays
  split at replays
  · rw [replayOpsGraph_eq] at replays
    split at replays
    · obtain ⟨-, rfl⟩ := EStateM.Result.ok.inj replays
      exact ⟨rfl, ⟨rfl, rfl, rfl⟩, rfl⟩
    · simp at replays
  · obtain ⟨-, rfl⟩ := EStateM.Result.ok.inj replays
    exact ⟨rfl, .refl _, rfl⟩

theorem replayIfNeeded_error
    (fails : replayIfNeeded S cgka = .error fault mid) : mid = cgka := by
  rw [replayIfNeeded_eq] at fails
  split at fails
  · rw [replayOpsGraph_eq] at fails
    split at fails
    · simp at fails
    · exact (EStateM.Result.error.inj fails).2.symm
  · simp at fails

variable {fail : Fault → Cgka → Prop}

theorem after_replay {post : Unit → Cgka → Prop}
    (goesOn : ∀ mid, replayIfNeeded S cgka = .ok () mid → post () mid)
    (fails : ∀ fault, fail fault cgka) : After (replayIfNeeded S cgka) post fail := by
  cases replays : replayIfNeeded S cgka with
  | ok _ mid => exact goesOn mid replays
  | error fault mid =>
    obtain rfl := replayIfNeeded_error replays
    exact fails fault

theorem afterCommit_of {signer : Signer} {payload : CgkaOperation}
    {post : SignedOp → Cgka → Prop}
    (commits : ∀ op : SignedOp, op.payload = payload →
      post op { mid with opsGraph := mid.opsGraph.addLocalOp S.hashOp op })
    (fails : ∀ fault, fail fault mid) : AfterCommit S signer payload mid post fail := by
  unfold AfterCommit
  split
  · exact fails _
  · exact commits _ rfl

end Parts

variable {S} (w : World Cr) {cgka : Cgka}

theorem step_add (id : MemberId) (pk : ShareKey) (signer : Signer) :
    After (add S id pk signer cgka) (fun op cgka' => Step S w cgka op cgka') (Unmoved cgka) := by
  rw [after_add]
  refine ⟨fun _ => .keys (.refl _), fun _ => after_replay (fun mid replays => ?_) unmoved_refl⟩
  obtain ⟨graph, group, -⟩ := replayIfNeeded_frame replays
  cases pushes : mid.tree.pushLeaf id (.shareKey pk) with
  | error fault => exact unmoved_of graph group
  | ok pushed =>
    refine afterCommit_of (fun op payload => ?_) fun fault =>
      unmoved_of graph ⟨group.1, group.2, group.3⟩
    exact .make replays (payload ▸ .add pushes) (.refl _)

theorem step_remove (id : MemberId) (signer : Signer) :
    After (remove S id signer cgka) (fun op cgka' => Step S w cgka op cgka') (Unmoved cgka) := by
  rw [after_remove]
  refine ⟨fun _ => .keys (.refl _), fun _ => after_replay (fun mid replays => ?_) unmoved_refl⟩
  obtain ⟨graph, group, -⟩ := replayIfNeeded_frame replays
  split
  · exact unmoved_of graph group
  · rename_i several
    cases removes : mid.tree.removeId id with
    | error fault => exact unmoved_of graph group
    | ok removed =>
      refine afterCommit_of (fun op payload => ?_) fun fault =>
        unmoved_of graph ⟨group.1, group.2, group.3⟩
      exact .make replays (payload ▸ .remove several removes) (.refl _)

theorem step_update (newPk : ShareKey) (newSk : ShareSecretKey) (signer : Signer) (csprng : Rng) :
    After (update S newPk newSk signer csprng cgka)
      (fun made cgka' => Step S w cgka (some made.2) cgka') (Unmoved cgka) := by
  rw [after_update]
  refine after_replay (fun mid replays => ?_) unmoved_refl
  obtain ⟨graph, group, -⟩ := replayIfNeeded_frame replays
  cases encrypts : BeeKem.encryptPath S.toCrypto mid.ownerId newPk
      (mid.ownerSks.insert newPk newSk) csprng mid.tree with
  | error fault tree =>
    simp only [encrypts]
    exact unmoved_of graph ⟨group.1, group.2, group.3⟩
  | ok made tree =>
    simp only [encrypts, after_ok]
    refine afterCommit_of (fun op payload => ?_) fun fault =>
      unmoved_of graph ⟨group.1, group.2, group.3⟩
    exact insertPcsKey_keysOnly _ _ _ fun cgka' keys =>
      .make replays (payload ▸ .update encrypts) (.trans ⟨_, _, _, rfl⟩ keys)

theorem step_mergeConcurrentOperation {op : SignedOp} (published : op ∈ w.published.map Prod.fst) :
    After (mergeConcurrentOperation S op cgka) (fun _ cgka' => Step S w cgka none cgka')
      (Unmoved cgka) := by
  have applied (mid : Cgka) (graph : mid.opsGraph = cgka.opsGraph) (group : SameGroup cgka mid)
      {post : Unit → Cgka → Prop}
      (goesOn : ∀ cgka', applyOperation S op mid = .ok () cgka' → post () cgka') :
      After (applyOperation S op mid) post (Unmoved cgka) := by
    cases applies : applyOperation S op mid with
    | ok _ cgka' => exact goesOn cgka' applies
    | error fault cgka' =>
      obtain rfl := applyOperation_error applies
      exact unmoved_of graph group
  rw [after_mergeConcurrentOperation]
  split
  · exact .keys (.refl _)
  · rename_i unknown
    rw [Bool.not_eq_true] at unknown
    split
    · exact unmoved_refl _
    · rename_i known
      rw [Bool.not_eq_false] at known
      split
      · rename_i follows
        refine after_replay (fun mid replays => ?_) unmoved_refl
        obtain ⟨graph, group, -⟩ := replayIfNeeded_frame replays
        exact applied mid graph group fun cgka' applies =>
          .follow published unknown known follows replays applies
      · rename_i concurrent
        rw [Bool.not_eq_true] at concurrent
        split
        · rename_i pending
          have step := Step.wait (S := S) published unknown known concurrent (.inl pending)
          rwa [← pending] at step
        · rename_i settled
          rw [Bool.not_eq_true] at settled
          split
          · rename_i isUpdate
            exact applied cgka rfl (.refl _) fun cgka' applies =>
              .join published unknown known concurrent settled isUpdate applies
          · rename_i membership
            exact .wait published unknown known concurrent
              (.inr (by rwa [Bool.not_eq_true] at membership))

theorem merges_merge (fork : Cgka) :
    After (merge S fork cgka) (fun _ cgka' => Merges S fork cgka cgka') (Unmoved cgka) := by
  rw [after_merge]
  split
  · rename_i result rebuilds
    exact ⟨result, rebuilds, rfl⟩
  · intro error same
    simp at same
  · rename_i fault notErr rebuilds
    intro error same
    exact absurd same (notErr error)

theorem step_newAppSecretFor (contentRef : Cr) (content : List UInt8) (predRefs : List Cr)
    (signer : Signer) (csprng : Rng) :
    After (newAppSecretFor S contentRef content predRefs signer csprng cgka)
      (fun made cgka' => Step S w cgka made.2 cgka') (Unmoved cgka) := by
  have derived (pcsKey : PcsKey) (op : Option SignedOp) (cgka' : Cgka)
      (step : Step S w cgka op cgka') :
      AfterDerive S cgka.docId contentRef content predRefs pcsKey op cgka'
        (fun made cgka' => Step S w cgka made.2 cgka') (Unmoved cgka) := by
    unfold AfterDerive
    split
    · intro error same
      simp at same
    · exact step
  rw [after_newAppSecretFor]
  split
  · exact unmoved_refl _
  · refine (pcsKeyFromTreeRoot_keysOnly cgka).mono (fun pcsKey cgka' keys => ?_) fun fault cgka' keys => ?_
    · exact derived _ _ _ (.keys keys)
    · exact unmoved_of keys.opsGraph keys.sameGroup
  · refine (step_update w _ _ signer _).mono (fun made cgka' step => ?_) fun _ _ unmoved => unmoved
    refine insertPcsKey_keysOnly _ _ _ fun cgka'' keys => derived _ _ _ ?_
    cases step with
    | make replays makes keys' => exact .make replays makes (keys'.trans keys)

/-- **What a call does**, and the copies that it makes. -/
theorem moves_call {call : Call Cr} {computation : CgkaM (Output Cr)}
    (runs : w.run S cgka call = some computation) :
    After (computation cgka)
      (fun output cgka' => Moves S w call cgka output.op cgka' ∧
        ∀ other ∈ output.replica, ∃ id ownerSks, other = cgka'.withNewOwner id ownerSks)
      (Unmoved cgka) := by
  cases call with
  | add id pk signer =>
    obtain rfl := Option.some.inj runs
    simp only [after_bind, after_pure]
    exact (step_add w id pk signer).mono (fun _ _ step => ⟨.inl step, by simp⟩) fun _ _ kept => kept
  | remove id signer =>
    obtain rfl := Option.some.inj runs
    simp only [after_bind, after_pure]
    exact (step_remove w id signer).mono (fun _ _ step => ⟨.inl step, by simp⟩) fun _ _ kept => kept
  | update newPk newSk signer csprng =>
    obtain rfl := Option.some.inj runs
    simp only [after_bind, after_pure]
    exact (step_update w newPk newSk signer csprng).mono (fun _ _ step => ⟨.inl step, by simp⟩)
      fun _ _ kept => kept
  | mergeConcurrentOperation op =>
    obtain ⟨entry, found, rfl⟩ := Option.map_eq_some_iff.mp runs
    simp only [after_bind, after_pure]
    exact (step_mergeConcurrentOperation w
      (List.mem_map_of_mem (List.mem_of_getElem? found))).mono
      (fun _ _ step => ⟨.inl step, by simp⟩) fun _ _ kept => kept
  | newAppSecretFor contentRef content predRefs signer csprng =>
    obtain rfl := Option.some.inj runs
    simp only [after_bind, after_pure]
    exact (step_newAppSecretFor w contentRef content predRefs signer csprng).mono
      (fun _ _ step => ⟨.inl step, by simp⟩) fun _ _ kept => kept
  | decryptionKeyFor encrypted =>
    obtain rfl := Option.some.inj runs
    simp only [after_bind, after_pure]
    exact (decryptionKeyFor_keysOnly _ cgka).mono (fun _ _ keys => ⟨.inl (.keys keys), by simp⟩)
      fun _ _ keys => unmoved_of keys.opsGraph keys.sameGroup
  | merge fork =>
    obtain ⟨other, found, rfl⟩ := Option.map_eq_some_iff.mp runs
    obtain ⟨found, same⟩ := Option.filter_eq_some_iff.mp found
    simp only [after_bind, after_pure]
    exact (merges_merge other).mono
      (fun _ _ merges => ⟨.inr ⟨rfl, fork, other, rfl, found, by simpa using same, merges⟩, by simp⟩)
      fun _ _ kept => kept
  | withNewOwner id ownerSks =>
    obtain rfl := Option.some.inj runs
    simp only [after_bind, after_get, after_pure]
    refine ⟨.inl (.keys (.refl _)), fun other member => ?_⟩
    exact ⟨id, ownerSks, (Option.some.inj member).symm⟩

end Cgka

end KeyhiveEval.Beekem
