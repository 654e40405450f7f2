/-
**The incremental path agrees with the replay.**

A replica applies most operations to its tree as they are made or received, and replays its whole
graph when concurrent ones are pending. In a run of calls that all return, the tree of a replica that
has nothing to replay is the tree of a replay (`World.Reachable.current`):

* an operation that is made here follows exactly the heads, so a replay applies it last, to the tree
  of the replay before;
* an operation that is received and follows all the heads is in the same position: what its author
  knew includes all that is known here, and nothing there followed its predecessors;
* every other operation leaves the replica with something to replay.

So replicas in step stay in step (`World.Reachable.followed_in_step`).
-/

import KeyhiveEval.Beekem.Replay
import KeyhiveEval.Beekem.Sample

namespace KeyhiveEval.Beekem

open Std Stateful OrderedSets CgkaOperationGraph

/-! ### One call -/

namespace CgkaOperationGraph

variable {hash : SignedOp → OpDigest} {ops : List SignedOp} {root : SignedOp}
  {graph author : CgkaOperationGraph}

theorem Grown.knows_history (grown : Grown hash ops root graph) (grown' : Grown hash ops root author)
    (distinct : Distinct hash ops) (causal : Causal hash graph) {m h : OpDigest}
    (below : History graph (single m) h) (known : m ∈ author.cgkaOps) : h ∈ author.cgkaOps := by
  induction below with
  | head member =>
    obtain rfl := (mem_insert_iff.mp member).resolve_right (by simp)
    exact known
  | before _ precedes ih =>
    obtain ⟨op, found, member⟩ := causal.sound.mem_before.mp precedes
    obtain ⟨op', found'⟩ := mem_iff_exists.mp ih
    obtain rfl := grown.same distinct grown' found found'
    exact grown'.closed _ op found' _ member

/-- **Nothing follows the predecessors of an operation that follows all the heads**, if nothing did
so for its author. -/
theorem Grown.tops (grown : Grown hash ops root graph) (grown' : Grown hash ops root author)
    (distinct : Distinct hash ops) (causal : Causal hash graph) {op : SignedOp}
    (new : hash op ∉ graph.cgkaOps)
    (covers : ∀ h ∈ graph.cgkaOpHeads, h ∈ op.payload.predecessors)
    (here : author.cgkaOps[hash op]? = some op)
    (only : ∀ p ∈ op.payload.predecessors, ∀ (h : OpDigest) (op' : SignedOp),
      author.cgkaOps[h]? = some op' → p ∈ op'.payload.predecessors → h = hash op) :
    ∀ p ∈ op.payload.predecessors, ∀ (h : OpDigest) (op' : SignedOp),
      graph.cgkaOps[h]? = some op' → p ∉ op'.payload.predecessors := by
  intro p isPred h op' found follows
  have known : h ∈ graph.cgkaOps := mem_iff_exists.mpr ⟨op', found⟩
  obtain ⟨m, isHead, below⟩ := grown.exists_head causal.sound known
  have knownThere := grown.knows_history grown' distinct causal below
    (grown'.closed _ op here m (covers m isHead))
  obtain ⟨op'', found'⟩ := mem_iff_exists.mp knownThere
  obtain rfl := grown.same distinct grown' found found'
  obtain rfl := only p isPred h op' found' follows
  exact new known

end CgkaOperationGraph

namespace Cgka

variable {S : Suite} {Cr : Type} [ContentRef Cr]

/-- The tree is that of a replay, unless there is something to replay. -/
def Current (cgka : Cgka) : Prop := cgka.shouldReplay = false → cgka.replayedTree = .ok cgka.tree

variable {cgka cgka' : Cgka}

theorem Current.keysOnly (current : cgka.Current) (keys : KeysOnly cgka cgka') :
    cgka'.Current := by
  obtain ⟨_, _, _, rfl⟩ := keys
  exact current

/-- An operation on top of the graph is applied to the tree of the replay before. -/
theorem replayedTree_next {ops ops' : List SignedOp} {root op : SignedOp}
    {tree : BeeKem} (next : Next S.hashOp cgka.opsGraph op cgka'.opsGraph)
    (grown : Grown S.hashOp ops root cgka.opsGraph) (causal : Causal S.hashOp cgka.opsGraph)
    (grown' : Grown S.hashOp ops' root cgka'.opsGraph) (causal' : Causal S.hashOp cgka'.opsGraph)
    (free : ∀ p, p ∉ root.payload.predecessors)
    (tops : ∀ p ∈ op.payload.predecessors, ∀ (h : OpDigest) (op' : SignedOp),
      cgka.opsGraph.cgkaOps[h]? = some op' → p ∉ op'.payload.predecessors)
    (group : SameGroup cgka cgka') (before : cgka.replayedTree = .ok tree) :
    cgka'.replayedTree = applyToTree tree op.payload := by
  obtain ⟨rest, sorted⟩ := grown.sorted causal free
  have sorted' := next.sorted_next grown causal grown' causal' free tops sorted
  rw [replayedTree_eq sorted', group.docId, group.originalMember]
  rw [replayedTree_eq sorted] at before
  cases new : BeeKem.new cgka.docId cgka.originalMember.1 cgka.originalMember.2 with
  | error fault =>
    rw [new] at before
    simp [Except.bind] at before
  | ok first =>
    rw [new] at before
    show first.afterEpochs (rest ++ [[op]]) = _
    rw [BeeKem.afterEpochs_append, show first.afterEpochs rest = .ok tree from before]
    exact BeeKem.afterEpochs_single tree op

theorem replayedTree_congr (graph : cgka'.opsGraph = cgka.opsGraph)
    (group : SameGroup cgka cgka') : cgka'.replayedTree = cgka.replayedTree := by
  unfold replayedTree
  rw [graph, group.docId, group.originalMember]

variable {rest : List CgkaEpoch}

theorem Current.replayIfNeeded {mid : Cgka}
    (sorted : Sorted S.hashOp cgka.initAddOp cgka.opsGraph rest) (current : cgka.Current)
    (replays : replayIfNeeded S cgka = .ok () mid) : mid.Current := by
  intro _
  obtain ⟨graph, group, -⟩ := replayIfNeeded_frame replays
  rw [replayedTree_congr graph group]
  exact replayIfNeeded_tree sorted current replays

theorem Merges.current {fork : Cgka}
    (sorted : Sorted S.hashOp cgka'.initAddOp cgka'.opsGraph rest) (merges : Merges S fork cgka cgka') :
    cgka'.Current := by
  obtain ⟨result, rebuilds, rfl⟩ := merges
  have sorted : Sorted S.hashOp (cgka.withFork fork).initAddOp (cgka.withFork fork).opsGraph rest := sorted
  have replayed := rebuilt_tree sorted rebuilds
  exact fun _ => replayed

theorem shouldReplay_of_pending {h : OpDigest} (head : h ∈ cgka.opsGraph.cgkaOpHeads)
    (pending : cgka.pendingOpsForStructuralChange = true) : cgka.shouldReplay = true := by
  unfold shouldReplay
  rw [isEmpty_eq_false_iff.mpr ⟨h, head⟩, pending]
  rfl

theorem shouldReplay_of_heads {h h' : OpDigest} (head : h ∈ cgka.opsGraph.cgkaOpHeads)
    (head' : h' ∈ cgka.opsGraph.cgkaOpHeads) (apart : h ≠ h') : cgka.shouldReplay = true := by
  have several : cgka.opsGraph.hasSingleHead = false := by
    unfold hasSingleHead
    rw [beq_eq_false_iff_ne]
    intro single
    exact apart (size_le_one_iff.mp (Nat.le_of_eq single) h h' head head')
  unfold shouldReplay
  rw [isEmpty_eq_false_iff.mpr ⟨h, head⟩, several]
  simp

/-- **A call that returns keeps the tree current**, a merge of forks apart. -/
theorem Step.current {w : World Cr} {first : Cgka} {op : Option SignedOp}
    (step : Step S w cgka op cgka') (histories : w.Histories S first) (heads : w.Heads S)
    (member : cgka ∈ w.replicas) (distinct : Distinct S.hashOp (w.ops ++ op.toList))
    (shaped : ∃ h, cgka.tree.Shaped h) (current : cgka.Current) : cgka'.Current := by
  have distinct₀ := distinct.left
  obtain ⟨grown, group⟩ := histories.grown.replicas cgka member
  have causal := histories.causal distinct₀ grown
  have free := histories.chronicle.free
  obtain ⟨rest, sorted⟩ := grown.sorted causal free
  have sorted₀ : Sorted S.hashOp cgka.initAddOp cgka.opsGraph rest := by rwa [group.initAddOp]
  obtain ⟨chronicle', grown', group'⟩ := histories.step member step distinct
  have causal' := grown'.causal chronicle' distinct
  cases step with
  | keys keys => exact current.keysOnly keys
  | @make mid _ op tree replays makes keys =>
    obtain ⟨graph, groupMid, -⟩ := replayIfNeeded_frame replays
    have before := replayIfNeeded_tree sorted₀ current replays
    have preds := makes.mem_predecessors
    rw [graph] at preds
    obtain ⟨h, shapedMid⟩ : ∃ h, mid.tree.Shaped h := by
      have kept := (shaped_invariant S).replayIfNeeded shaped fun _ =>
        Conditions.none_onReplay S cgka
      rwa [replays] at kept
    have same : cgka'.opsGraph = cgka.opsGraph.addLocalOp S.hashOp op := by
      rw [keys.opsGraph, ← graph]
    have next : Next S.hashOp cgka.opsGraph op cgka'.opsGraph := by
      rw [same]
      exact next_addLocalOp (grown.fresh causal distinct fun h isHead => (preds h).mpr isHead)
        fun h isHead => (preds h).mpr isHead
    intro _
    have exact := heads.exact.replicas cgka member
    rw [replayedTree_next next grown causal grown' causal' free
      (fun p isPred => exact p ((preds p).mp isPred))
      (groupMid.trans ⟨keys.sameGroup.1, keys.sameGroup.2, keys.sameGroup.3⟩) before, keys.tree]
    exact makes.applies shapedMid
  | @follow mid _ op published unknown known follows replays applies =>
    obtain ⟨graph, groupMid, -⟩ := replayIfNeeded_frame replays
    have before := replayIfNeeded_tree sorted₀ current replays
    have new : S.hashOp op ∉ cgka.opsGraph.cgkaOps := fun isKnown =>
      Bool.eq_false_iff.mp unknown (ExtTreeMap.contains_iff_mem.mpr isKnown)
    have covers := headsContainedIn_iff.mp follows
    obtain ⟨entry, isEntry, rfl⟩ := List.mem_map.mp published
    obtain ⟨here, only⟩ := heads.author entry isEntry
    have tops := grown.tops (histories.grown.published entry isEntry).1 distinct₀ causal new covers
      here only
    rcases applyOperation_ok applies with ⟨again, -⟩ | ⟨tree, -, applied, rfl⟩
    · rw [graph, unknown] at again
      simp at again
    · intro _
      have next : Next S.hashOp cgka.opsGraph entry.1
          (mid.opsGraph.addOp S.hashOp entry.1 entry.1.payload.predecessors) := by
        rw [graph]
        exact next_addOp new covers
      rw [replayedTree_next next grown causal grown' causal' free tops ⟨groupMid.1, groupMid.2,
        groupMid.3⟩ before]
      exact applied
  | wait published unknown known concurrent waits =>
    obtain ⟨h, isHead⟩ := grown'.nonempty
    intro settled
    rw [shouldReplay_of_pending isHead rfl] at settled
    simp at settled
  | @join _ op published unknown known concurrent settled isUpdate applies =>
    -- A head that the operation does not follow stays beside it.
    obtain ⟨h, isHead, apart⟩ : ∃ h ∈ cgka.opsGraph.cgkaOpHeads, h ∉ op.payload.predecessors := by
      by_contra none
      push Not at none
      exact Bool.eq_false_iff.mp concurrent (headsContainedIn_iff.mpr none)
    rcases applyOperation_ok applies with ⟨again, -⟩ | ⟨tree, -, -, rfl⟩
    · rw [unknown] at again
      simp at again
    · intro none
      have different : h ≠ S.hashOp op := by
        rintro rfl
        exact Bool.eq_false_iff.mp unknown
          (ExtTreeMap.contains_iff_mem.mpr (grown.heads _ isHead))
      have stays : h ∈ (cgka.opsGraph.addOp S.hashOp op op.payload.predecessors).cgkaOpHeads := by
        refine mem_insert_iff.mpr (.inr (mem_eraseAll.mpr ⟨isHead, ?_⟩))
        rwa [ExtTreeSet.mem_toList]
      have new : S.hashOp op
          ∈ (cgka.opsGraph.addOp S.hashOp op op.payload.predecessors).cgkaOpHeads :=
        mem_insert_iff.mpr (.inl rfl)
      rw [shouldReplay_of_heads stays new different] at none
      simp at none

end Cgka

/-! ### Runs -/

namespace World

variable {S : Suite} {Cr : Type} [ContentRef Cr]

/-- Calls that return, other than merges of forks. -/
def Succeeds (S : Suite) (w : World Cr) (cgka : Cgka) (call : Call Cr) : Prop :=
  w.Returns S cgka call ∧ NoMerge w cgka call

variable {docId : TreeId} {ownerId : MemberId} {ownerPk : ShareKey} {signer : Signer} {first : Cgka}
  (created : Cgka.new S docId ownerId ownerPk signer = .ok first) {w : World Cr}

include created

theorem new_current : first.Current := by
  obtain ⟨graph, free⟩ := new_graph created
  have grown : Grown S.hashOp [first.initAddOp] first.initAddOp first.opsGraph := by
    rw [graph]
    exact grown_new free
  have distinct : Distinct S.hashOp [first.initAddOp] := fun one here other there _ =>
    (List.mem_singleton.mp here).trans (List.mem_singleton.mp there).symm
  obtain ⟨rest, sorted⟩ := grown.sorted (grown.causal (chronicle_new free) distinct) free
  -- The graph has the first operation only.
  have none : ∀ epoch ∈ rest, epoch = [] := by
    intro epoch inside
    rw [List.eq_nil_iff_forall_not_mem]
    intro op member
    have later : op ∈ rest.flatten := List.mem_flatten.mpr ⟨epoch, inside, member⟩
    have found := (sorted.mem_iff op).mp (List.mem_cons_of_mem _ later)
    obtain rfl := List.mem_singleton.mp (grown.keyed _ op found).2
    have once := sorted.distinct
    rw [List.map_cons, List.nodup_cons] at once
    exact once.1 (List.mem_map_of_mem later)
  intro _
  rw [Cgka.replayedTree_eq sorted]
  obtain ⟨signedOp, -, made⟩ := except_bind_ok_iff.mp created
  obtain ⟨tree, new, result⟩ := except_bind_ok_iff.mp made
  obtain rfl := except_pure_ok_iff.mp result
  show (BeeKem.new docId ownerId ownerPk).bind _ = _
  rw [new]
  exact BeeKem.afterEpochs_of_empty none tree

/-- **The tree of every replica is current** in a run whose merges keep the heads exact and whose failed
calls leave what was there. -/
theorem Reachable.currentWhere {admits : World Cr → Cgka → Call Cr → Prop}
    (keeps : ∀ w cgka call, admits w cgka call → KeepsHeads w cgka call)
    (settles : ∀ {w : World Cr} {cgka cgka' : Cgka} {call : Call Cr} {computation : CgkaM (Output Cr)}
      {error : CgkaError}, Reachable S first admits w → cgka ∈ w.replicas → admits w cgka call →
      w.run S cgka call = some computation → computation cgka = .error (.err error) cgka' →
      Cgka.Settled S cgka cgka')
    (reached : Reachable S first admits w) (noCollision : w.NoCollision S) :
    w.Everywhere Cgka.Current := by
  refine reached.along created ?_ ?_ ?_ noCollision
  · exact everywhere_start (new_current created)
  · intro w replica cgka cgka' call computation output before histories noCollision current found
      admitted _ _ moves copies
    have member := List.mem_of_getElem? found
    have heads := before.heads created noCollision.of_record keeps
    have distinct : Distinct S.hashOp (w.ops ++ output.op.toList) := by
      rw [← ops_record w replica cgka' output]
      exact noCollision
    have current' : cgka'.Current := by
      rcases moves with step | ⟨none, i, fork, isMerge, isReplica, owner, merges⟩
      · exact step.current histories heads member distinct
          ((before.shaped created).replicas cgka member) (current.replicas cgka member)
      · obtain ⟨chronicle', grown', group'⟩ := histories.moves member distinct
          (.inr ⟨none, i, fork, isMerge, isReplica, owner, merges⟩)
        obtain ⟨rest, sorted⟩ := grown'.sorted (grown'.causal chronicle' distinct) chronicle'.free
        rw [← group'.initAddOp] at sorted
        exact merges.current sorted
    refine current.record current' fun other copied => ?_
    obtain ⟨id, ownerSks, rfl⟩ := copies other copied
    exact current'
  · intro w replica cgka cgka' call computation error before histories noCollision current found admitted
      runs fails _ _
    have member := List.mem_of_getElem? found
    refine current.record ?_ (by simp)
    rcases settles before member admitted runs fails with keys | ⟨mid, replays, keys⟩
    · exact (current.replicas cgka member).keysOnly keys
    · obtain ⟨grown, group⟩ := histories.grown.replicas cgka member
      obtain ⟨rest, sorted⟩ := grown.sorted (histories.causal noCollision grown) histories.chronicle.free
      rw [← group.initAddOp] at sorted
      exact ((current.replicas cgka member).replayIfNeeded sorted replays).keysOnly keys

/-- **In a run of calls that return, without merges, the tree of every replica is current.** -/
theorem Reachable.current (reached : Reachable S first (Succeeds S) w)
    (noCollision : w.NoCollision S) : w.Everywhere Cgka.Current := by
  refine reached.currentWhere created (fun _ _ _ succeeds => succeeds.2.keepsHeads) ?_ noCollision
  intro w cgka cgka' call computation error _ _ succeeds runs fails
  obtain ⟨computation', output, cgka'', runs', returns⟩ := succeeds.1
  obtain rfl := Option.some.inj (runs.symm.trans runs')
  rw [returns] at fails
  cases fails

end World

namespace Sample

def succeeds (w : World Unit) (cgka : Cgka) (call : Call Unit) : Bool :=
  match call, w.run suite cgka call with
  | .merge _, _ => false
  | _, some computation =>
    match computation cgka with
    | .ok _ _ => true
    | .error _ _ => false
  | _, none => false

theorem succeeds_sound (w : World Unit) (cgka : Cgka) (call : Call Unit)
    (holds : succeeds w cgka call = true) : World.Succeeds suite w cgka call := by
  unfold succeeds at holds
  split at holds
  · simp at holds
  · rename_i notMerge runs
    split at holds
    · rename_i output cgka' returns
      exact ⟨⟨_, output, cgka', runs, returns⟩, fun fork same => notMerge fork same⟩
    · simp at holds
  · simp at holds

end Sample

/-! ### The tree of a replica and the tree of a replay -/

section Agreement

variable {S : Suite} {Cr : Type} [ContentRef Cr] {docId : TreeId} {ownerId : MemberId}
  {ownerPk : ShareKey} {signer : Signer} {first : Cgka}

/-- The tree of a replay is what the epochs make of the replica from which it starts. -/
theorem Cgka.exists_applied {cgka : Cgka} {rest : List CgkaEpoch} {tree : BeeKem}
    (sorted : Sorted S.hashOp cgka.initAddOp cgka.opsGraph rest)
    (replayed : cgka.replayedTree = .ok tree) :
    ∃ start applied, rebuildStart S cgka = .ok start ∧
      applyEpochs S ([cgka.initAddOp] :: rest) start = .ok () applied ∧ applied.tree = tree := by
  rw [replayedTree_eq sorted] at replayed
  rw [rebuildStart_eq]
  cases new : BeeKem.new cgka.docId cgka.originalMember.1 cgka.originalMember.2 with
  | error fault =>
    rw [new] at replayed
    simp [Except.bind] at replayed
  | ok start =>
    rw [new] at replayed
    have computes := applyEpochs_started sorted.distinct start
    rw [show start.afterEpochs rest = .ok tree from replayed] at computes
    exact ⟨_, _, rfl, computes, rfl⟩

/-- **The incremental path agrees with the replay.** In a run of calls that return, without merges of
forks, a replica that has nothing to replay holds the tree that rebuilding from its operations makes.
Two replicas with the same operations then hold the same tree. -/
theorem incremental_agrees_with_replay
    (created : Cgka.new S docId ownerId ownerPk signer = .ok first) {w : World Cr}
    (reached : World.Reachable S first (World.Succeeds S) w) (noCollision : w.NoCollision S) :
    (∀ cgka ∈ w.replicas, cgka.shouldReplay = false →
      ∃ epochs start applied, cgka.opsGraph.topsortGraph = .ok epochs ∧
        Cgka.rebuildStart S cgka = .ok start ∧
        Cgka.applyEpochs S epochs start = .ok () applied ∧ applied.tree = cgka.tree ∧
        ∀ result cgka', Cgka.rebuildCgka S epochs cgka = .ok result cgka' →
          result.tree = cgka.tree) ∧
      ∀ one ∈ w.replicas, ∀ other ∈ w.replicas, one.opsGraph.cgkaOps = other.opsGraph.cgkaOps →
        one.shouldReplay = false → other.shouldReplay = false → one.tree = other.tree := by
  have histories := reached.histories created noCollision
  have current := reached.current created noCollision
  constructor
  · intro cgka member settled
    obtain ⟨grown, group⟩ := histories.grown.replicas cgka member
    obtain ⟨rest, sorted⟩ :=
      grown.sorted (histories.causal noCollision grown) histories.chronicle.free
    rw [← group.initAddOp] at sorted
    have replayed := current.replicas cgka member settled
    obtain ⟨start, applied, starts, applies, same⟩ := Cgka.exists_applied sorted replayed
    refine ⟨_, start, applied, sorted.sorts, starts, applies, same, fun result cgka' rebuilds => ?_⟩
    obtain ⟨_, applied', starts', applies', keys⟩ := Cgka.rebuildCgka_ok rebuilds
    obtain rfl := Except.ok.inj (starts.symm.trans starts')
    obtain ⟨-, rfl⟩ := EStateM.Result.ok.inj (applies.symm.trans applies')
    rw [keys.tree, same]
  · intro one hereOne other hereOther same settledOne settledOther
    obtain ⟨grownOne, groupOne⟩ := histories.grown.replicas one hereOne
    obtain ⟨grownOther, groupOther⟩ := histories.grown.replicas other hereOther
    have sorts := grownOne.topsort_eq (histories.causal noCollision grownOne) grownOther
      (histories.causal noCollision grownOther) same
    have replayed : one.replayedTree = other.replayedTree := by
      unfold Cgka.replayedTree
      rw [sorts, groupOne.docId, groupOne.originalMember, groupOther.docId, groupOther.originalMember]
    rw [current.replicas one hereOne settledOne, current.replicas other hereOther settledOther]
      at replayed
    exact Except.ok.inj replayed

/-- Two replicas add members concurrently, the first updates after it has received both, and the
second receives all of it. -/
def concurrentThenUpdate : List (Nat × Call Unit) :=
  [(0, .add (Sample.member 2) (Sample.key 0x20) (Sample.signer 2)),
   (0, .withNewOwner (Sample.member 2) (Sample.secrets [0x20])),
   (0, .add (Sample.member 3) (Sample.key 0x30) (Sample.signer 3)),
   (1, .add (Sample.member 4) (Sample.key 0x40) (Sample.signer 4)),
   (0, .mergeConcurrentOperation 3),
   (0, .update (Sample.key 0x50) (Sample.secret 0x50) (Sample.signer 5) (Sample.rng 0x60)),
   (1, .mergeConcurrentOperation 2),
   (1, .mergeConcurrentOperation 4)]

/-- Both replicas have the same five operations and nothing to replay. -/
def bothUpToDate (w : World Unit) : Bool :=
  match w.replicas with
  | [one, other] => !one.shouldReplay && !other.shouldReplay &&
      one.opsGraph.cgkaOps.size == 5 && one.opsGraph.cgkaOps == other.opsGraph.cgkaOps &&
      decide (w.NoCollision Sample.suite)
  | _ => false

theorem trees_agree_after_concurrentThenUpdate :
    ∃ (w : World Unit) (one other : Cgka), w.replicas = [one, other] ∧
      one.opsGraph.cgkaOps.size = 5 ∧ one.opsGraph.cgkaOps = other.opsGraph.cgkaOps ∧
      one.tree = other.tree := by
  obtain ⟨first, w, created, reached, checked⟩ :=
    Sample.reached concurrentThenUpdate bothUpToDate Sample.succeeds_sound (by decide +kernel)
  unfold bothUpToDate at checked
  split at checked
  · rename_i one other replicas
    simp only [Bool.and_eq_true, Bool.not_eq_true', beq_iff_eq, decide_eq_true_eq] at checked
    obtain ⟨⟨⟨⟨settledOne, settledOther⟩, size⟩, same⟩, noCollision⟩ := checked
    exact ⟨w, one, other, replicas, size, same, (incremental_agrees_with_replay created reached
      noCollision).2 one (by simp [replicas]) other (by simp [replicas]) same settledOne
        settledOther⟩
  · simp at checked

/-! ### Replicas in step -/

/-- An operation that was made here is added as one that is received. -/
theorem Cgka.Makes.addOp_eq {mid : Cgka} {op : SignedOp} {tree : BeeKem}
    (makes : Cgka.Makes S mid op.payload tree) :
    mid.opsGraph.addOp S.hashOp op op.payload.predecessors = mid.opsGraph.addLocalOp S.hashOp op := by
  have all : op.payload.predecessors = mid.opsGraph.cgkaOpHeads :=
    ExtTreeSet.ext_mem fun p => makes.mem_predecessors p
  have none (set : ExtTreeSet OpDigest) : eraseAll set set.toList = ∅ :=
    ExtTreeSet.ext_mem fun p => by simp [mem_eraseAll]
  unfold addOp addLocalOp
  rw [all, none]
  congr 1
  generalize op.payload = payload at makes
  cases makes with
  | add pushes => simp [CgkaOperation.isAdd, none]
  | remove several removes => rfl
  | update encrypts => rfl

/-- **Replicas in step stay in step.** In any run, a replica that has nothing to replay makes an operation. Every
replica with the same operations and the same tree that has nothing to replay either accepts it, and has then the
same operations and the same tree again, and nothing to replay. -/
theorem World.Reachable.followed_in_step (created : Cgka.new S docId ownerId ownerPk signer = .ok first)
    {admits : World Cr → Cgka → Call Cr → Prop} {w : World Cr} {replica : Nat} {call : Call Cr}
    {cgka cgka' other : Cgka} {computation : CgkaM (Output Cr)} {output : Output Cr} {op : SignedOp}
    (reached : World.Reachable S first admits w) (isReplica : cgka ∈ w.replicas)
    (runs : w.run S cgka call = some computation) (returns : computation cgka = .ok output cgka')
    (publishes : output.op = some op) (noCollision : (w.record replica cgka' output).NoCollision S)
    (sameTree : other.tree = cgka.tree) (sameGraph : other.opsGraph = cgka.opsGraph)
    (settled : cgka.shouldReplay = false) (settledOther : other.shouldReplay = false) :
    ∃ other', Cgka.mergeConcurrentOperation S op other = .ok true other' ∧ other'.tree = cgka'.tree ∧
      other'.opsGraph = cgka'.opsGraph ∧ other'.shouldReplay = false := by
  have histories := reached.histories created noCollision.of_record
  obtain ⟨grown, -⟩ := histories.grown.replicas cgka isReplica
  obtain ⟨h, shaped⟩ := (reached.shaped created).replicas cgka isReplica
  have moves := Cgka.moves_call w runs
  rw [returns] at moves
  obtain ⟨step | ⟨silent, -⟩, -⟩ := moves
  · rw [publishes] at step
    cases step with
    | make replays makes keys =>
      rw [Cgka.replayIfNeeded_eq, if_neg (by simp [settled])] at replays
      obtain ⟨-, rfl⟩ := EStateM.Result.ok.inj replays
      rename_i tree
      have distinct : Distinct S.hashOp (w.ops ++ [op]) := by
        have apart := noCollision
        rwa [NoCollision, ops_record, publishes] at apart
      have new : S.hashOp op ∉ cgka.opsGraph.cgkaOps :=
        grown.fresh (histories.causal noCollision.of_record grown) distinct fun p => (makes.mem_predecessors p).mpr
      have accepts : After (Cgka.mergeConcurrentOperation S op other) (fun fresh other' => fresh = true ∧
          other' = { other with tree, opsGraph := cgka.opsGraph.addLocalOp S.hashOp op }) (fun _ _ => False) := by
        have unknown : cgka.opsGraph.containsOpHash (S.hashOp op) = false := by
          rwa [containsOpHash, Bool.eq_false_iff, ne_eq, ExtTreeMap.contains_iff_mem]
        have known : cgka.opsGraph.containsPredecessors op.payload.predecessors = true :=
          containsPredecessors_iff.mpr fun p isPred => grown.heads p ((makes.mem_predecessors p).mp isPred)
        have follows : cgka.opsGraph.headsContainedIn op.payload.predecessors = true :=
          headsContainedIn_iff.mpr fun p => (makes.mem_predecessors p).mpr
        rw [Cgka.after_mergeConcurrentOperation, sameGraph, unknown, known, follows, Cgka.replayIfNeeded_eq,
          settledOther]
        simp only [Bool.false_eq_true, if_false, if_true, reduceCtorEq, after_ok, Cgka.applyOperation_eq, sameGraph,
          unknown, sameTree, makes.applies shaped, makes.addOp_eq, and_self]
      cases returns' : Cgka.mergeConcurrentOperation S op other with
      | error fault other' =>
        rw [returns'] at accepts
        exact accepts.elim
      | ok fresh other' =>
        rw [returns'] at accepts
        obtain ⟨rfl, rfl⟩ := accepts
        refine ⟨_, rfl, keys.tree.symm, keys.opsGraph.symm, ?_⟩
        have some : cgka.opsGraph.cgkaOpHeads.isEmpty = false := isEmpty_eq_false_iff.mpr grown.nonempty
        have idle : other.pendingOpsForStructuralChange = false := by
          rw [Cgka.shouldReplay, sameGraph, some] at settledOther
          simpa using (Bool.or_eq_false_iff.mp settledOther).1
        simp [Cgka.shouldReplay, addLocalOp, hasSingleHead, ExtTreeSet.size_insert, idle]
  · rw [publishes] at silent
    cases silent

/-- The first of two replicas in step updates its key. -/
def updateOfTheFirst (w : World Unit) : Bool :=
  match w.replicas with
  | [one, other] => !one.shouldReplay && !other.shouldReplay && other.tree = one.tree && other.opsGraph = one.opsGraph &&
      (value? (Cgka.update Sample.suite (Sample.key 0x50) (Sample.secret 0x50) (Sample.signer 5) (Sample.rng 0x60)
        one)).any fun made => decide ((w.record 0 made.2 { op := some made.1.2 }).NoCollision Sample.suite)
  | _ => false

theorem update_followed_in_step : ∃ (one other other' : Cgka) (made : (PcsKey × SignedOp) × Cgka),
    value? (Cgka.update Sample.suite (Sample.key 0x50) (Sample.secret 0x50) (Sample.signer 5) (Sample.rng 0x60) one) =
      some made ∧ Cgka.mergeConcurrentOperation Sample.suite made.1.2 other = .ok true other' ∧
      other'.tree = made.2.tree := by
  obtain ⟨first, w, created, reached, checked⟩ := Sample.reachedFreely
    [(0, .add (Sample.member 2) (Sample.key 0x20) (Sample.signer 2)),
     (0, .withNewOwner (Sample.member 2) (Sample.secrets [0x20]))] updateOfTheFirst (by decide +kernel)
  unfold updateOfTheFirst at checked
  split at checked
  · rename_i one other replicas
    simp only [Bool.and_eq_true, Bool.not_eq_true', decide_eq_true_eq, Option.any_eq_true] at checked
    obtain ⟨⟨⟨⟨settled, settledOther⟩, sameTree⟩, sameGraph⟩, made, updates, noCollision⟩ := checked
    have returns := eq_ok_of_isSome (Option.isSome_of_mem updates)
    simp only [updates, Option.get_some] at returns
    obtain ⟨other', accepts, tree, -⟩ := reached.followed_in_step created (by simp [replicas])
      (rfl : w.run _ one (.update ..) = _) (bind_ok_iff.mpr ⟨_, _, returns, rfl⟩) rfl noCollision sameTree sameGraph
      settled settledOther
    exact ⟨one, other, other', made, updates, accepts, tree⟩
  · simp at checked

end Agreement

end KeyhiveEval.Beekem
