/-
**Invariants over whole runs.**

* `World.Reachable.everywhere` — the rule for runs: what holds of the first replica and is kept by
  every call, whether it returns or fails, holds of every replica and of every state in which
  something was published.
* `Conditions` — conditions on the operations that a call applies to the tree, each stated on the
  tree just before: on every operation, and on the tree whose leaves are sorted at the end of an
  epoch. `Conditions.OnCall` collects what they say about one call, its replay included.
* `TreeInvariant` — a property of trees that the operations keep where the conditions hold;
  `World.Reachable.treeInvariant` carries it to the tree of every replica of a run.
-/

import KeyhiveEval.Beekem.Calls

set_option linter.unusedSectionVars false

namespace KeyhiveEval.Beekem

open Std Stateful

/-! ### The rule for runs -/

namespace World

variable {S : Suite} {Cr : Type} [ContentRef Cr]

/-- Whether a property holds of all replicas and of all states that were recorded. -/
structure Everywhere (holds : Cgka → Prop) (w : World Cr) : Prop where
  replicas : ∀ cgka ∈ w.replicas, holds cgka
  published : ∀ entry ∈ w.published, holds entry.2
  sent : ∀ entry ∈ w.sent, holds entry.sender

variable {holds : Cgka → Prop} {w : World Cr} {replica : Nat}

theorem Everywhere.record (everywhere : w.Everywhere holds) {cgka : Cgka} {output : Output Cr} (here : holds cgka)
    (copy : ∀ other ∈ output.replica, holds other) :
    (w.record replica cgka output).Everywhere holds := by
  refine ⟨fun other member => ?_, fun entry member => ?_, fun entry member => ?_⟩
  · rcases List.mem_append.mp member with old | new
    · rcases List.mem_or_eq_of_mem_set old with old | rfl
      · exact everywhere.replicas other old
      · exact here
    · exact copy other (by simpa using new)
  · rcases List.mem_append.mp member with old | new
    · exact everywhere.published entry old
    · obtain ⟨op, -, rfl⟩ := List.mem_map.mp new
      exact here
  · rcases List.mem_append.mp member with old | new
    · exact everywhere.sent entry old
    · obtain ⟨sent, -, rfl⟩ := List.mem_map.mp new
      exact here

variable {first : Cgka}

theorem everywhere_start (here : holds first) :
    (start first : World Cr).Everywhere holds := by
  refine ⟨fun cgka member => ?_, fun entry member => ?_, fun entry member => ?_⟩
  · rwa [List.mem_singleton.mp member]
  · rwa [List.mem_singleton.mp member]
  · simp [World.start] at member

theorem next_cases {w' : World Cr} {call : Call Cr}
    (next : w.next S replica call = some w') :
    ∃ cgka computation, w.replicas[replica]? = some cgka ∧
      w.run S cgka call = some computation ∧
      ((∃ output cgka', computation cgka = .ok output cgka' ∧ w' = w.record replica cgka' output) ∨
        ∃ error cgka', computation cgka = .error (.err error) cgka' ∧
          w' = w.record replica cgka' {}) := by
  unfold World.next at next
  obtain ⟨cgka, found, next⟩ := Option.bind_eq_some_iff.mp next
  obtain ⟨computation, runs, next⟩ := Option.bind_eq_some_iff.mp next
  refine ⟨cgka, computation, found, runs, ?_⟩
  split at next
  · rename_i output cgka' returns
    exact .inl ⟨output, cgka', returns, (Option.some.inj next).symm⟩
  · rename_i error cgka' fails
    exact .inr ⟨error, cgka', fails, (Option.some.inj next).symm⟩
  · simp at next

/-- **What every call keeps holds everywhere.** -/
theorem Reachable.everywhere {admits : World Cr → Cgka → Call Cr → Prop} (start : holds first)
    (step : ∀ (w : World Cr) cgka call computation, w.Everywhere holds → holds cgka →
      admits w cgka call → w.run S cgka call = some computation →
      After (computation cgka)
        (fun output cgka' => holds cgka' ∧ ∀ other ∈ output.replica, holds other)
        (fun _ cgka' => holds cgka')) (reached : Reachable S first admits w) : w.Everywhere holds := by
  induction reached with
  | start => exact everywhere_start start
  | call before found admitted after ih =>
    rename_i w w' replica cgka call
    obtain ⟨cgka₀, computation, found₀, runs, outcome⟩ := next_cases after
    obtain rfl := Option.some.inj (found.symm.trans found₀)
    have kept := step w cgka call computation ih (ih.replicas cgka (List.mem_of_getElem? found))
      admitted runs
    rcases outcome with ⟨output, cgka', returns, rfl⟩ | ⟨error, cgka', fails, rfl⟩
    · rw [returns] at kept
      exact ih.record kept.1 kept.2
    · rw [fails] at kept
      exact ih.record kept (by simp)

end World

/-! ### Conditions on the operations that are applied -/

/-- Conditions on the tree before an operation is applied, and on the tree at the end of an epoch
before its leaves are sorted. -/
structure Conditions where
  op : BeeKem → CgkaOperation → Prop
  epoch : BeeKem → CgkaEpoch → Prop

namespace Conditions

variable (S : Suite) (conds : Conditions)

/-- The condition on one operation, unless the replica knows it. -/
def OnOp (op : SignedOp) (cgka : Cgka) : Prop :=
  cgka.opsGraph.containsOpHash (S.hashOp op) = false → conds.op cgka.tree op.payload

/-- The conditions on operations that are applied one after the other. -/
def OnOps : List SignedOp → Cgka → Prop
  | [], _ => True
  | op :: rest, cgka =>
    conds.OnOp S op cgka ∧ ∀ cgka', Cgka.applyOperation S op cgka = .ok () cgka' → OnOps rest cgka'

/-- The conditions on epochs that are applied one after the other. -/
def OnEpochs : List CgkaEpoch → Cgka → Prop
  | [], _ => True
  | epoch :: rest, cgka =>
    conds.OnOps S epoch cgka ∧
    (∀ cgka', Cgka.applyOperations S epoch cgka = .ok () cgka' → Cgka.NeedsSorting epoch →
      conds.epoch cgka'.tree epoch) ∧
    ∀ cgka', Cgka.applyEpoch S epoch cgka = .ok () cgka' → OnEpochs rest cgka'

def OnReplay (cgka : Cgka) : Prop :=
  ∀ epochs start, cgka.opsGraph.topsortGraph = .ok epochs → Cgka.rebuildStart S cgka = .ok start →
    conds.OnEpochs S epochs start

/-- The conditions on a call that replays if it has to and then applies an operation. -/
def OnReplayThen (cgka : Cgka) (op : Cgka → Prop) : Prop :=
  (cgka.shouldReplay = true → conds.OnReplay S cgka) ∧
    ∀ cgka', Cgka.replayIfNeeded S cgka = .ok () cgka' → op cgka'

/-- The conditions on an operation that is received. -/
def OnDelivery (op : SignedOp) (cgka : Cgka) : Prop :=
  cgka.opsGraph.containsOpHash (S.hashOp op) = false →
    cgka.opsGraph.containsPredecessors op.payload.predecessors = true →
    if cgka.opsGraph.headsContainedIn op.payload.predecessors then
      conds.OnReplayThen S cgka (conds.OnOp S op)
    else cgka.pendingOpsForStructuralChange = false → op.payload.isUpdate = true →
      conds.OnOp S op cgka

/-- **The conditions on a call**: on everything that it applies to the tree of the replica. -/
def OnCall {Cr : Type} (w : World Cr) (cgka : Cgka) : Call Cr → Prop
  | .add id pk _ => cgka.tree.containsId id = false → conds.OnReplayThen S cgka fun cgka =>
      conds.op cgka.tree (.add id pk cgka.tree.nextLeafIdx cgka.opsGraph.cgkaOpHeads.toList
        cgka.opsGraph.addHeads.toList cgka.docId)
  | .remove id _ => cgka.tree.containsId id = true → conds.OnReplayThen S cgka fun cgka =>
      ∀ leafIdx removedKeys, conds.op cgka.tree
        (.remove id leafIdx removedKeys cgka.opsGraph.cgkaOpHeads.toList cgka.docId)
  | .update .. => conds.OnReplayThen S cgka fun _ => True
  | .mergeConcurrentOperation op =>
    ∀ entry, w.published[op]? = some entry → conds.OnDelivery S entry.1 cgka
  | .newAppSecretFor .. => conds.OnReplayThen S cgka fun _ => True
  | .decryptionKeyFor _ => True
  | .merge fork => ∀ other, w.replicas[fork]? = some other → other.ownerId = cgka.ownerId →
      conds.OnReplay S (cgka.withFork other)
  | .withNewOwner .. => True

end Conditions

/-! ### Invariants of trees -/

/-- **A property of trees that the operations keep** where the conditions hold. -/
structure TreeInvariant (S : Suite) (conds : Conditions) (holds : BeeKem → Prop) : Prop where
  new : ∀ docId id pk tree, BeeKem.new docId id pk = .ok tree → holds tree
  apply : ∀ tree op tree', holds tree → conds.op tree op → Cgka.applyToTree tree op = .ok tree' →
    holds tree'
  sort : ∀ tree epoch tree', holds tree → conds.epoch tree epoch →
    tree.sortLeavesAndBlankPathsForConcurrentMembershipChanges (Cgka.addedIds epoch)
      (Cgka.removedIds epoch) = .ok tree' → holds tree'
  encrypt : ∀ tree id pk sks csprng, holds tree →
    After (BeeKem.encryptPath S.toCrypto id pk sks csprng tree) (fun _ tree' => holds tree')
      (fun _ tree' => holds tree')

namespace TreeInvariant

variable {S : Suite} {conds : Conditions} {holds : BeeKem → Prop}
  (invariant : TreeInvariant S conds holds)

include invariant

variable {op : SignedOp} {cgka : Cgka}

theorem applyOperation (before : holds cgka.tree)
    (meets : conds.OnOp S op cgka) :
    After (Cgka.applyOperation S op cgka) (fun _ cgka' => holds cgka'.tree)
      (fun _ cgka' => holds cgka'.tree) := by
  rw [Cgka.applyOperation_eq]
  split
  · exact before
  · rename_i unknown
    cases applied : Cgka.applyToTree cgka.tree op.payload with
    | error fault => exact before
    | ok tree =>
      exact invariant.apply _ _ _ before (meets (Bool.eq_false_iff.mpr unknown)) applied

theorem applyOperations {ops : List SignedOp} {cgka' : Cgka} (before : holds cgka.tree)
    (meets : conds.OnOps S ops cgka) (applies : Cgka.applyOperations S ops cgka = .ok () cgka') :
    holds cgka'.tree := by
  induction ops generalizing cgka with
  | nil =>
    obtain ⟨-, rfl⟩ := pure_ok_iff.mp applies
    exact before
  | cons op ops ih =>
    obtain ⟨mid, applied, applies⟩ := seq_ok_iff.mp applies
    have kept := invariant.applyOperation before meets.1
    rw [applied] at kept
    exact ih kept (meets.2 mid applied) applies

theorem applyEpochs {epochs : List CgkaEpoch} {cgka' : Cgka} (before : holds cgka.tree)
    (meets : conds.OnEpochs S epochs cgka) (applies : Cgka.applyEpochs S epochs cgka = .ok () cgka') :
    holds cgka'.tree := by
  induction epochs generalizing cgka with
  | nil =>
    obtain ⟨-, rfl⟩ := pure_ok_iff.mp applies
    exact before
  | cons epoch epochs ih =>
    obtain ⟨mid, applied, applies⟩ := seq_ok_iff.mp applies
    refine ih ?_ (meets.2.2 mid applied) applies
    obtain ⟨all, appliedAll, ending⟩ := Cgka.applyEpoch_ok_iff.mp applied
    have kept := invariant.applyOperations before meets.1 appliedAll
    rcases ending with ⟨-, rfl⟩ | ⟨sorting, tree, sorts, rfl⟩
    · exact kept
    · exact invariant.sort _ _ _ kept (meets.2.1 all appliedAll sorting) sorts

theorem rebuildStart {start : Cgka} (starts : Cgka.rebuildStart S cgka = .ok start) :
    holds start.tree := by
  obtain ⟨first, created, rest⟩ := except_bind_ok_iff.mp starts
  obtain ⟨tree, new, rest'⟩ := except_bind_ok_iff.mp created
  obtain rfl := except_pure_ok_iff.mp rest'
  obtain rfl := except_pure_ok_iff.mp rest
  exact invariant.new _ _ _ _ new

theorem rebuilt {result : Cgka} (meets : conds.OnReplay S cgka)
    (rebuilds : Cgka.rebuilt S cgka = .ok result) : holds result.tree := by
  obtain ⟨epochs, start, applied, sorted, starts, applies, keys⟩ := Cgka.rebuilt_ok rebuilds
  rw [keys.tree]
  exact invariant.applyEpochs (invariant.rebuildStart starts) (meets epochs start sorted starts)
    applies

theorem replayIfNeeded (before : holds cgka.tree)
    (meets : cgka.shouldReplay = true → conds.OnReplay S cgka) :
    After (Cgka.replayIfNeeded S cgka) (fun _ cgka' => holds cgka'.tree)
      (fun _ cgka' => holds cgka'.tree) := by
  rw [Cgka.replayIfNeeded_eq]
  split
  · rename_i should
    rw [Cgka.replayOpsGraph_eq]
    cases rebuilds : Cgka.rebuilt S cgka with
    | error fault => exact before
    | ok result =>
      show holds result.tree
      exact invariant.rebuilt (meets should) rebuilds
  · exact before

variable {fail : Fault → Cgka → Prop}

theorem replayThen {op : Cgka → Prop} {post : Unit → Cgka → Prop} (before : holds cgka.tree)
    (meets : conds.OnReplayThen S cgka op)
    (goesOn : ∀ cgka', holds cgka'.tree → op cgka' → post () cgka')
    (fails : ∀ fault cgka', holds cgka'.tree → fail fault cgka') :
    After (Cgka.replayIfNeeded S cgka) post fail := by
  have kept := invariant.replayIfNeeded before meets.1
  cases replays : Cgka.replayIfNeeded S cgka with
  | ok _ cgka' =>
    rw [replays] at kept
    exact goesOn cgka' kept (meets.2 cgka' replays)
  | error fault cgka' =>
    rw [replays] at kept
    exact fails fault cgka' kept

variable {signer : Signer}

theorem afterCommit {payload : CgkaOperation}
    {post : SignedOp → Cgka → Prop} (before : holds cgka.tree)
    (commits : ∀ op cgka', holds cgka'.tree → post op cgka')
    (fails : ∀ fault cgka', holds cgka'.tree → fail fault cgka') :
    Cgka.AfterCommit S signer payload cgka post fail := by
  unfold Cgka.AfterCommit
  split
  · exact fails _ _ before
  · exact commits _ _ before

variable {id : MemberId}

theorem add {pk : ShareKey}
    (before : holds cgka.tree)
    (meets : cgka.tree.containsId id = false → conds.OnReplayThen S cgka fun cgka =>
      conds.op cgka.tree (.add id pk cgka.tree.nextLeafIdx cgka.opsGraph.cgkaOpHeads.toList
        cgka.opsGraph.addHeads.toList cgka.docId)) :
    After (Cgka.add S id pk signer cgka) (fun _ cgka' => holds cgka'.tree)
      (fun _ cgka' => holds cgka'.tree) := by
  rw [Cgka.after_add]
  refine ⟨fun _ => before, fun absent => ?_⟩
  refine invariant.replayThen before (meets absent) (fun cgka' kept fresh => ?_)
    fun _ _ kept => kept
  cases pushes : cgka'.tree.pushLeaf id (.shareKey pk) with
  | error fault => exact kept
  | ok pushed =>
    refine invariant.afterCommit ?_ (fun _ _ kept => kept) fun _ _ kept => kept
    refine invariant.apply _ _ _ kept fresh ?_
    simp only [Cgka.applyToTree, pushes]
    rfl

theorem remove (before : holds cgka.tree)
    (meets : cgka.tree.containsId id = true → conds.OnReplayThen S cgka fun cgka =>
      ∀ leafIdx removedKeys, conds.op cgka.tree
        (.remove id leafIdx removedKeys cgka.opsGraph.cgkaOpHeads.toList cgka.docId)) :
    After (Cgka.remove S id signer cgka) (fun _ cgka' => holds cgka'.tree)
      (fun _ cgka' => holds cgka'.tree) := by
  rw [Cgka.after_remove]
  refine ⟨fun _ => before, fun present => ?_⟩
  refine invariant.replayThen before (meets present) (fun cgka' kept applicable => ?_)
    fun _ _ kept => kept
  split
  · exact kept
  · cases removes : cgka'.tree.removeId id with
    | error fault => exact kept
    | ok removed =>
      refine invariant.afterCommit ?_ (fun _ _ kept => kept) fun _ _ kept => kept
      refine invariant.apply _ _ _ kept (applicable removed.1.1 removed.1.2) ?_
      simp only [Cgka.applyToTree, removes]
      rfl

variable {csprng : Rng}

theorem update {newPk : ShareKey} {newSk : ShareSecretKey} (before : holds cgka.tree)
    (meets : conds.OnReplayThen S cgka fun _ => True) :
    After (Cgka.update S newPk newSk signer csprng cgka) (fun _ cgka' => holds cgka'.tree)
      (fun _ cgka' => holds cgka'.tree) := by
  rw [Cgka.after_update]
  refine invariant.replayThen before meets (fun cgka' kept _ => ?_) fun _ _ kept => kept
  refine (invariant.encrypt _ _ _ _ _ kept).mono (fun made tree kept => ?_) fun _ _ kept => kept
  exact invariant.afterCommit kept (fun _ _ kept => kept) fun _ _ kept => kept

theorem mergeConcurrentOperation (before : holds cgka.tree)
    (meets : conds.OnDelivery S op cgka) :
    After (Cgka.mergeConcurrentOperation S op cgka) (fun _ cgka' => holds cgka'.tree)
      (fun _ cgka' => holds cgka'.tree) := by
  rw [Cgka.after_mergeConcurrentOperation]
  split
  · exact before
  · rename_i unknown
    split
    · exact before
    · rename_i known
      have meets := meets (Bool.eq_false_iff.mpr unknown) (Bool.eq_true_of_not_eq_false known)
      split at meets
      · rename_i follows
        rw [if_pos follows]
        exact invariant.replayThen before meets
          (fun cgka' kept meets => invariant.applyOperation kept meets) fun _ _ kept => kept
      · rename_i concurrent
        rw [if_neg concurrent]
        split
        · exact before
        · rename_i settled
          split
          · rename_i isUpdate
            exact invariant.applyOperation before
              (meets (Bool.eq_false_iff.mpr settled) isUpdate)
          · exact before

theorem merge {fork : Cgka} (before : holds cgka.tree)
    (meets : conds.OnReplay S (cgka.withFork fork)) :
    After (Cgka.merge S fork cgka) (fun _ cgka' => holds cgka'.tree)
      (fun _ cgka' => holds cgka'.tree) := by
  rw [Cgka.after_merge]
  split
  · rename_i result rebuilds
    show holds result.tree
    exact invariant.rebuilt meets rebuilds
  · exact before
  · exact before

variable {Cr : Type}

theorem newAppSecretFor [ContentRef Cr] {contentRef : Cr} {content : List UInt8}
    {predRefs : List Cr} (before : holds cgka.tree)
    (meets : conds.OnReplayThen S cgka fun _ => True) :
    After (Cgka.newAppSecretFor S contentRef content predRefs signer csprng cgka)
      (fun _ cgka' => holds cgka'.tree) (fun _ cgka' => holds cgka'.tree) := by
  have derives : ∀ pcsKey op (cgka' : Cgka), holds cgka'.tree →
      Cgka.AfterDerive S cgka.docId contentRef content predRefs pcsKey op cgka'
        (fun _ cgka' => holds cgka'.tree) (fun _ cgka' => holds cgka'.tree) := by
    intro pcsKey op cgka' kept
    unfold Cgka.AfterDerive
    split
    · exact kept
    · exact kept
  rw [Cgka.after_newAppSecretFor]
  split
  · exact before
  · refine (Cgka.pcsKeyFromTreeRoot_keysOnly cgka).mono (fun pcsKey cgka' keys => ?_)
      fun fault cgka' keys => ?_
    · exact derives _ _ _ (keys.tree ▸ before)
    · exact keys.tree ▸ before
  · refine (invariant.update before meets).mono (fun made cgka' kept => ?_) fun _ _ kept => kept
    exact Cgka.insertPcsKey_keysOnly _ _ _ fun cgka'' keys => derives _ _ _ (keys.tree ▸ kept)

theorem call [ContentRef Cr] {w : World Cr} {call : Call Cr}
    {computation : CgkaM (Output Cr)} (before : holds cgka.tree) (meets : conds.OnCall S w cgka call)
    (runs : w.run S cgka call = some computation) :
    After (computation cgka)
      (fun output cgka' => holds cgka'.tree ∧ ∀ other ∈ output.replica, holds other.tree)
      (fun _ cgka' => holds cgka'.tree) := by
  cases call with
  | add id pk signer =>
    obtain rfl := Option.some.inj runs
    simp only [after_bind, after_pure]
    exact (invariant.add before meets).mono (fun _ _ kept => ⟨kept, by simp⟩) fun _ _ kept => kept
  | remove id signer =>
    obtain rfl := Option.some.inj runs
    simp only [after_bind, after_pure]
    exact (invariant.remove before meets).mono (fun _ _ kept => ⟨kept, by simp⟩)
      fun _ _ kept => kept
  | update newPk newSk signer csprng =>
    obtain rfl := Option.some.inj runs
    simp only [after_bind, after_pure]
    exact (invariant.update before meets).mono (fun _ _ kept => ⟨kept, by simp⟩)
      fun _ _ kept => kept
  | mergeConcurrentOperation op =>
    obtain ⟨entry, found, rfl⟩ := Option.map_eq_some_iff.mp runs
    simp only [after_bind, after_pure]
    exact (invariant.mergeConcurrentOperation before (meets entry found)).mono
      (fun _ _ kept => ⟨kept, by simp⟩) fun _ _ kept => kept
  | newAppSecretFor contentRef content predRefs signer csprng =>
    obtain rfl := Option.some.inj runs
    simp only [after_bind, after_pure]
    exact (invariant.newAppSecretFor before meets).mono (fun _ _ kept => ⟨kept, by simp⟩)
      fun _ _ kept => kept
  | decryptionKeyFor encrypted =>
    obtain rfl := Option.some.inj runs
    simp only [after_bind, after_pure]
    exact (Cgka.decryptionKeyFor_keysOnly _ cgka).mono
      (fun _ _ keys => ⟨keys.tree ▸ before, by simp⟩) fun _ _ keys => keys.tree ▸ before
  | merge fork =>
    obtain ⟨other, found, rfl⟩ := Option.map_eq_some_iff.mp runs
    obtain ⟨found, same⟩ := Option.filter_eq_some_iff.mp found
    simp only [after_bind, after_pure]
    exact (invariant.merge before (meets other found (by simpa using same))).mono
      (fun _ _ kept => ⟨kept, by simp⟩) fun _ _ kept => kept
  | withNewOwner id ownerSks =>
    obtain rfl := Option.some.inj runs
    simp only [after_bind, after_get, after_pure]
    refine ⟨before, fun other member => ?_⟩
    obtain rfl := Option.some.inj member
    exact before

end TreeInvariant

/-- **An invariant of trees holds of every replica of a run.** -/
theorem World.Reachable.treeInvariant {S : Suite} {Cr : Type} [ContentRef Cr] {conds : Conditions}
    {holds : BeeKem → Prop} (invariant : TreeInvariant S conds holds) {docId : TreeId}
    {ownerId : MemberId} {ownerPk : ShareKey} {signer : Signer} {first : Cgka}
    (created : Cgka.new S docId ownerId ownerPk signer = .ok first)
    {admits : World Cr → Cgka → Call Cr → Prop}
    (meets : ∀ w cgka call, admits w cgka call → conds.OnCall S w cgka call) {w : World Cr}
    (reached : World.Reachable S first admits w) : w.Everywhere fun cgka => holds cgka.tree := by
  refine reached.everywhere ?_ fun w cgka call computation _ before admitted runs =>
    invariant.call before (meets w cgka call admitted) runs
  obtain ⟨signedOp, -, rest⟩ := except_bind_ok_iff.mp created
  obtain ⟨tree, new, rest⟩ := except_bind_ok_iff.mp rest
  obtain rfl := except_pure_ok_iff.mp rest
  exact invariant.new _ _ _ _ new

/-! ### The shape of the trees -/

def Conditions.none : Conditions where
  op _ _ := True
  epoch _ _ := True

namespace Conditions

theorem none_onOps (S : Suite) (ops : List SignedOp) (cgka : Cgka) :
    Conditions.none.OnOps S ops cgka := by
  induction ops generalizing cgka with
  | nil => trivial
  | cons op ops ih => exact ⟨fun _ => trivial, fun cgka' _ => ih cgka'⟩

theorem none_onEpochs (S : Suite) (epochs : List CgkaEpoch) (cgka : Cgka) :
    Conditions.none.OnEpochs S epochs cgka := by
  induction epochs generalizing cgka with
  | nil => trivial
  | cons epoch epochs ih =>
    exact ⟨none_onOps S epoch cgka, fun _ _ _ => trivial, fun cgka' _ => ih cgka'⟩

theorem none_onReplay (S : Suite) (cgka : Cgka) : Conditions.none.OnReplay S cgka :=
  fun epochs start _ _ => none_onEpochs S epochs start

theorem none_onReplayThen (S : Suite) (cgka : Cgka) {op : Cgka → Prop} (met : ∀ cgka, op cgka) :
    Conditions.none.OnReplayThen S cgka op :=
  ⟨fun _ => none_onReplay S cgka, fun cgka' _ => met cgka'⟩

theorem none_onCall (S : Suite) {Cr : Type} (w : World Cr) (cgka : Cgka) (call : Call Cr) :
    Conditions.none.OnCall S w cgka call := by
  cases call with
  | add => exact fun _ => none_onReplayThen S cgka fun _ => trivial
  | remove => exact fun _ => none_onReplayThen S cgka fun _ _ _ => trivial
  | update => exact none_onReplayThen S cgka fun _ => trivial
  | mergeConcurrentOperation =>
    intro entry _ _ _
    split
    · exact none_onReplayThen S cgka fun _ _ => trivial
    · exact fun _ _ _ => trivial
  | newAppSecretFor => exact none_onReplayThen S cgka fun _ => trivial
  | merge => exact fun _ _ _ => none_onReplay S _
  | decryptionKeyFor => trivial
  | withNewOwner => trivial

end Conditions

/-- **Every operation keeps the shape of a tree.** -/
theorem shaped_invariant (S : Suite) :
    TreeInvariant S .none fun tree => ∃ h, tree.Shaped h where
  new docId id pk tree new := by
    obtain ⟨tree', created, shaped, -⟩ := BeeKem.new_ok docId id pk
    obtain rfl := Except.ok.inj (new.symm.trans created)
    exact ⟨1, shaped⟩
  apply tree op tree' before _ applies := by
    obtain ⟨h, shaped⟩ := before
    cases op with
    | add addedId pk leafIndex predecessors addPredecessors docId =>
      obtain ⟨⟨idx, pushed⟩, pushes, same⟩ := except_bind_ok_iff.mp applies
      obtain rfl := except_pure_ok_iff.mp same
      obtain ⟨room, -, rfl⟩ := shaped.pushLeaf_ok pushes
      exact ⟨_, shaped.pushed room _ _⟩
    | remove id leafIdx removedKeys predecessors docId =>
      obtain ⟨⟨⟨idx, keys⟩, removed⟩, removes, same⟩ := except_bind_ok_iff.mp applies
      obtain rfl := except_pure_ok_iff.mp same
      exact ⟨h, shaped.removed removes⟩
    | update id newPath predecessors docId =>
      rcases shaped.applyPath_ok applies with ⟨-, rfl⟩ | ⟨leafIdx, old, -, -, rfl⟩
      · exact ⟨h, shaped⟩
      · exact ⟨h, shaped.appliedPath _ _ _⟩
  sort tree epoch tree' before _ sorts := by
    obtain ⟨h, shaped⟩ := before
    exact shaped.sorted sorts
  encrypt tree id pk sks csprng before := by
    obtain ⟨h, shaped⟩ := before
    refine (shaped.encryptPath_frame S.toCrypto id pk sks csprng).mono
      (fun _ tree' rekeyed => ⟨h, shaped.rekeyed rekeyed⟩) fun _ tree' outcome => ?_
    rcases outcome with rfl | rekeyed
    · exact ⟨h, shaped⟩
    · exact ⟨h, shaped.rekeyed rekeyed⟩

theorem World.Reachable.shaped {S : Suite} {Cr : Type} [ContentRef Cr] {docId : TreeId}
    {ownerId : MemberId} {ownerPk : ShareKey} {signer : Signer} {first : Cgka}
    (created : Cgka.new S docId ownerId ownerPk signer = .ok first)
    {admits : World Cr → Cgka → Call Cr → Prop} {w : World Cr}
    (reached : World.Reachable S first admits w) :
    w.Everywhere fun cgka => ∃ h, cgka.tree.Shaped h :=
  reached.treeInvariant (shaped_invariant S) created fun _ cgka call _ =>
    Conditions.none_onCall S _ cgka call

end KeyhiveEval.Beekem
