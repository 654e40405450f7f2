/-
**What a replay computes.**

A replay sorts the graph into epochs and applies them, one after the other, to the tree of the first
member. Its tree depends on the operations only:

* `afterOps`, `afterEpoch`, `afterEpochs` — the tree after operations, without the replica around it.
  `applyEpochs_computes` says that the calls of the source compute these on a replica that does not
  know the operations yet.
* `Sorted` — the epochs of a graph: every operation once, after its predecessors, and the first
  operation in front.
* `Cgka.replayedTree` — the tree of a replay. One more operation on top of the graph is applied to the
  tree of the replay before it if it follows nothing but heads (`replayedTree_next`).
-/

import KeyhiveEval.Beekem.History
import KeyhiveEval.Beekem.EncryptedPaths

set_option linter.unusedSectionVars false

namespace KeyhiveEval.Beekem

open Std Stateful OrderedSets

/-! ### Trees through epochs -/

namespace BeeKem

def afterOps (tree : BeeKem) : List SignedOp → Res BeeKem
  | [] => .ok tree
  | op :: rest => do
    let tree ← Cgka.applyToTree tree op.payload
    tree.afterOps rest

def afterEpoch (tree : BeeKem) (epoch : CgkaEpoch) : Res BeeKem := do
  let tree ← tree.afterOps epoch
  if epoch.length = 1 ∨ epoch.all (fun op => op.payload.isUpdate) then .ok tree
  else
    tree.sortLeavesAndBlankPathsForConcurrentMembershipChanges (Cgka.addedIds epoch)
      (Cgka.removedIds epoch)

def afterEpochs (tree : BeeKem) : List CgkaEpoch → Res BeeKem
  | [] => .ok tree
  | epoch :: rest => do
    let tree ← tree.afterEpoch epoch
    tree.afterEpochs rest

theorem afterEpochs_append (tree : BeeKem) (first last : List CgkaEpoch) :
    tree.afterEpochs (first ++ last)
      = (tree.afterEpochs first).bind fun tree => tree.afterEpochs last := by
  induction first generalizing tree with
  | nil => rfl
  | cons epoch rest ih =>
    simp only [List.cons_append, afterEpochs, bind, Except.bind]
    cases tree.afterEpoch epoch with
    | error fault => rfl
    | ok tree => exact ih tree

theorem afterEpochs_of_empty {epochs : List CgkaEpoch} (empty : ∀ epoch ∈ epochs, epoch = [])
    (tree : BeeKem) : tree.afterEpochs epochs = .ok tree := by
  induction epochs with
  | nil => rfl
  | cons epoch rest ih =>
    obtain rfl := empty epoch List.mem_cons_self
    exact ih fun other member => empty other (List.mem_cons_of_mem _ member)

theorem afterEpochs_single (tree : BeeKem) (op : SignedOp) :
    tree.afterEpochs [[op]] = Cgka.applyToTree tree op.payload := by
  simp only [afterEpochs, afterEpoch, afterOps, bind, Except.bind]
  cases Cgka.applyToTree tree op.payload with
  | error fault => rfl
  | ok tree => simp

end BeeKem

namespace CgkaOperationGraph

def addOps (hash : SignedOp → OpDigest) (graph : CgkaOperationGraph) (ops : List SignedOp) :
    CgkaOperationGraph :=
  ops.foldl (fun graph op => graph.addOp hash op op.payload.predecessors) graph

theorem addOps_append (hash : SignedOp → OpDigest) (graph : CgkaOperationGraph)
    (first last : List SignedOp) :
    graph.addOps hash (first ++ last) = (graph.addOps hash first).addOps hash last :=
  List.foldl_append

theorem mem_addOps {hash : SignedOp → OpDigest} {graph : CgkaOperationGraph} {ops : List SignedOp}
    {h : OpDigest} : h ∈ (graph.addOps hash ops).cgkaOps ↔ h ∈ graph.cgkaOps ∨ h ∈ ops.map hash := by
  induction ops generalizing graph with
  | nil => simp [addOps]
  | cons op rest ih =>
    show h ∈ ((graph.addOp hash op op.payload.predecessors).addOps hash rest).cgkaOps ↔ _
    rw [ih, List.map_cons, List.mem_cons]
    show h ∈ graph.cgkaOps.insert (hash op) op ∨ _ ↔ _
    rw [mem_map_insert_iff]
    tauto

end CgkaOperationGraph

namespace Cgka

variable {S : Suite}

/-- A call computes a tree: it returns with that tree, or fails as the computation does. -/
def Computes (result : EStateM.Result Fault Cgka Unit) (value : Res BeeKem)
    (final : BeeKem → Cgka) : Prop :=
  match value with
  | .ok tree => result = .ok () (final tree)
  | .error fault => ∃ left, result = .error fault left

variable {cgka : Cgka}

theorem Computes.seq {first : CgkaM Unit} {next : Unit → CgkaM Unit} {value : Res BeeKem}
    {value' : BeeKem → Res BeeKem} {final final' : BeeKem → Cgka}
    (here : Computes (first cgka) value final)
    (later : ∀ tree, value = .ok tree → Computes (next () (final tree)) (value' tree) final') :
    Computes ((first >>= next) cgka) (value >>= value') final' := by
  show Computes (EStateM.bind first next cgka) _ _
  unfold EStateM.bind
  cases value with
  | error fault =>
    obtain ⟨left, fails⟩ := here
    rw [fails]
    exact ⟨left, rfl⟩
  | ok tree =>
    rw [show first cgka = _ from here]
    exact later tree rfl

/-- A replica that was given a tree and operations. -/
def grownBy (S : Suite) (cgka : Cgka) (ops : List SignedOp) (tree : BeeKem) : Cgka :=
  { cgka with tree, opsGraph := cgka.opsGraph.addOps S.hashOp ops }

theorem applyOperations_computes {ops : List SignedOp}
    (new : ∀ op ∈ ops, S.hashOp op ∉ cgka.opsGraph.cgkaOps)
    (distinct : (ops.map S.hashOp).Nodup) :
    Computes (applyOperations S ops cgka) (cgka.tree.afterOps ops) (cgka.grownBy S ops) := by
  induction ops generalizing cgka with
  | nil => rfl
  | cons op rest ih =>
    rw [List.map_cons, List.nodup_cons] at distinct
    have unknown : cgka.opsGraph.containsOpHash (S.hashOp op) = false := by
      rw [Bool.eq_false_iff]
      exact fun known => new op List.mem_cons_self (ExtTreeMap.contains_iff_mem.mp known)
    have here : Computes (applyOperation S op cgka) (applyToTree cgka.tree op.payload)
        (cgka.grownBy S [op]) := by
      rw [applyOperation_eq, unknown]
      cases applyToTree cgka.tree op.payload with
      | error fault => exact ⟨cgka, rfl⟩
      | ok tree => rfl
    refine here.seq fun tree _ => ?_
    refine ih (fun other member known => ?_) distinct.2
    rcases CgkaOperationGraph.mem_addOps.mp known with old | same
    · exact new other (List.mem_cons_of_mem _ member) old
    · rw [List.map_singleton, List.mem_singleton] at same
      exact distinct.1 (same ▸ List.mem_map_of_mem member)

theorem applyEpoch_computes {epoch : CgkaEpoch}
    (new : ∀ op ∈ epoch, S.hashOp op ∉ cgka.opsGraph.cgkaOps)
    (distinct : (epoch.map S.hashOp).Nodup) :
    Computes (applyEpoch S epoch cgka) (cgka.tree.afterEpoch epoch) (cgka.grownBy S epoch) := by
  refine (applyOperations_computes new distinct).seq fun tree _ => ?_
  split
  · rfl
  · show Computes (EStateM.bind (liftRes (BeeKem.sortLeavesAndBlankPathsForConcurrentMembershipChanges
      tree _ _)) _ _) (BeeKem.sortLeavesAndBlankPathsForConcurrentMembershipChanges tree _ _) _
    unfold EStateM.bind liftRes
    cases tree.sortLeavesAndBlankPathsForConcurrentMembershipChanges (addedIds epoch)
        (removedIds epoch) with
    | error fault => exact ⟨_, rfl⟩
    | ok tree => rfl

/-- **Epochs of operations that the replica does not know.** -/
theorem applyEpochs_computes {epochs : List CgkaEpoch}
    (new : ∀ op ∈ epochs.flatten, S.hashOp op ∉ cgka.opsGraph.cgkaOps)
    (distinct : (epochs.flatten.map S.hashOp).Nodup) :
    Computes (applyEpochs S epochs cgka) (cgka.tree.afterEpochs epochs)
      (cgka.grownBy S epochs.flatten) := by
  induction epochs generalizing cgka with
  | nil => rfl
  | cons epoch rest ih =>
    rw [List.flatten_cons, List.map_append, List.nodup_append] at distinct
    have here : Computes (applyEpoch S epoch cgka) _ (cgka.grownBy S epoch) :=
      applyEpoch_computes (fun op member => new op (List.mem_append_left _ member)) distinct.1
    refine here.seq fun tree _ => ?_
    have joined : cgka.grownBy S (epoch :: rest).flatten
        = (cgka.grownBy S epoch tree).grownBy S rest.flatten := funext fun tree' => by
      simp only [grownBy, List.flatten_cons, CgkaOperationGraph.addOps_append]
    rw [joined]
    refine ih (fun op member known => ?_) distinct.2.1
    rcases CgkaOperationGraph.mem_addOps.mp known with old | same
    · exact new op (List.mem_append_right _ member) old
    · exact distinct.2.2 _ same _ (List.mem_map_of_mem member) rfl

end Cgka

/-! ### The epochs of a graph -/

namespace CgkaOperationGraph

variable {hash : SignedOp → OpDigest} {ops : List SignedOp} {root : SignedOp}
  {graph graph' : CgkaOperationGraph}

/-- **The epochs of a graph**: its first operation, and then every other one, once and after its
predecessors. -/
structure Sorted (hash : SignedOp → OpDigest) (root : SignedOp) (graph : CgkaOperationGraph)
    (rest : List CgkaEpoch) : Prop where
  sorts : graph.topsortGraph = .ok ([root] :: rest)
  distinct : ((root :: rest.flatten).map hash).Nodup
  mem_iff : ∀ op, op ∈ root :: rest.flatten ↔ graph.cgkaOps[hash op]? = some op
  earlier : ∀ first op last, root :: rest.flatten = first ++ op :: last →
    ∀ p ∈ op.payload.predecessors, p ∈ first.map hash

/-- The graph of all operations, as the topological sort sees it. -/
def all (graph : CgkaOperationGraph) : Layering.Graph OpDigest := graph.history graph.cgkaOpHeads

theorem Grown.mem_all (grown : Grown hash ops root graph) (causal : Causal hash graph) (h : OpDigest) :
    h ∈ graph.all.nodes ↔ h ∈ graph.cgkaOps := grown.history_iff causal.sound h

variable {h : OpDigest}

theorem opsAt_single {op : SignedOp} (found : graph.cgkaOps[h]? = some op) :
    graph.opsAt [h] = [op] := List.filterMap_cons_some found

/-- **The epochs of some operations and their ancestors.** -/
structure SortedFor (hash : SignedOp → OpDigest) (root : SignedOp) (graph : CgkaOperationGraph)
    (heads : ExtTreeSet OpDigest) (rest : List CgkaEpoch) : Prop where
  sorts : graph.topsortForHeads heads = .ok ([root] :: rest)
  distinct : ((root :: rest.flatten).map hash).Nodup
  mem_iff : ∀ op, op ∈ root :: rest.flatten ↔
    graph.cgkaOps[hash op]? = some op ∧ History graph heads (hash op)
  earlier : ∀ first op last, root :: rest.flatten = first ++ op :: last →
    ∀ p ∈ op.payload.predecessors, p ∈ first.map hash

variable {heads : ExtTreeSet OpDigest}

theorem Grown.root_history (grown : Grown hash ops root graph) (causal : Causal hash graph)
    (free : ∀ p, p ∉ root.payload.predecessors)
    (known : ∀ h ∈ heads, h ∈ graph.cgkaOps) (isHistory : History graph heads h) :
    History graph heads (hash root) := by
  obtain ⟨rank, rises⟩ := causal.ranked
  obtain ⟨first, isFirst⟩ := causal.root
  induction steps : rank h using Nat.strong_induction_on generalizing h with
  | _ steps ih =>
    obtain ⟨op, found⟩ := mem_iff_exists.mp (causal.sound.known_of_history known isHistory)
    by_cases none : ∀ p, p ∉ op.payload.predecessors
    · rw [(isFirst _ root grown.root).mp free, ← (isFirst h op found).mp none]
      exact isHistory
    · push Not at none
      obtain ⟨p, isPred⟩ := none
      have := rises h op found p isPred
      exact ih (rank p) (by omega) (isHistory.before (causal.sound.mem_before.mpr ⟨op, found, isPred⟩)) rfl

variable {epochs : List (List OpDigest)}

/-- **The topological sort of a graph that has grown out of published operations.** -/
theorem Grown.sortedFor_of_epochs (grown : Grown hash ops root graph) (causal : Causal hash graph)
    (isKnown : ∀ h ∈ heads, h ∈ graph.cgkaOps) {head : OpDigest}
    (member : head ∈ heads)
    (isEpochs : Layering.Epochs Less (graph.history heads) epochs)
    (sorts : graph.topsortForHeads heads = .ok (epochs.map graph.opsAt))
    (free : ∀ p, p ∉ root.payload.predecessors) :
    ∃ rest, epochs = [hash root] :: rest ∧ SortedFor hash root graph heads (rest.map graph.opsAt) := by
  have known {h : OpDigest} (isHistory : History graph heads h) : h ∈ graph.cgkaOps :=
    causal.sound.known_of_history isKnown isHistory
  have least (h : OpDigest) (isNode : h ∈ (graph.history heads).nodes) :
      (graph.history heads).before h = ∅ ↔ h = hash root := by
    obtain ⟨op, found⟩ := mem_iff_exists.mp (known isNode)
    obtain ⟨first, isFirst⟩ := causal.root
    have same := (isFirst _ root grown.root).mp free
    rw [same, ← isFirst h op found, Set.eq_empty_iff_forall_notMem]
    refine forall_congr' fun p => not_congr ?_
    refine causal.sound.mem_before.trans ⟨?_, fun member => ⟨op, found, member⟩⟩
    rintro ⟨op', found', member⟩
    rw [found] at found'
    exact Option.some.inj found' ▸ member
  obtain ⟨rest, rfl⟩ := isEpochs.first (grown.root_history causal free isKnown (.head member)) least
  have same : ([hash root] :: rest).map graph.opsAt = [root] :: rest.map graph.opsAt := by
    rw [List.map_cons, opsAt_single grown.root]
  have decomposed := causal.sound.decomposed (fun _ => known) (fun _ isHistory _ before => .before isHistory before)
    isEpochs
  rw [same] at decomposed sorts
  exact ⟨rest, rfl, sorts, decomposed.distinct, decomposed.mem_iff, decomposed.earlier⟩

theorem Grown.sorted_of_epochs (grown : Grown hash ops root graph) (causal : Causal hash graph)
    (isEpochs : Layering.Epochs Less graph.all epochs)
    (sorts : graph.topsortGraph = .ok (epochs.map graph.opsAt))
    (free : ∀ p, p ∉ root.payload.predecessors) :
    ∃ rest, epochs = [hash root] :: rest ∧ Sorted hash root graph (rest.map graph.opsAt) := by
  obtain ⟨head, member⟩ := grown.nonempty
  obtain ⟨rest, same, sorted⟩ :=
    grown.sortedFor_of_epochs causal grown.heads member isEpochs sorts free
  refine ⟨rest, same, sorted.sorts, sorted.distinct, fun op => ?_, sorted.earlier⟩
  rw [sorted.mem_iff, grown.history_iff causal.sound]
  exact and_iff_left_of_imp fun found => mem_iff_exists.mpr ⟨op, found⟩

theorem Grown.sorted (grown : Grown hash ops root graph) (causal : Causal hash graph)
    (free : ∀ p, p ∉ root.payload.predecessors) : ∃ rest, Sorted hash root graph rest := by
  obtain ⟨head, member⟩ := grown.nonempty
  obtain ⟨epochs, isEpochs, sorts⟩ := causal.topsortForHeads_epochs grown.heads member
  obtain ⟨rest, -, sorted⟩ := grown.sorted_of_epochs causal isEpochs sorts free
  exact ⟨_, sorted⟩

/-- **The epochs depend on the operations only**, not on how the graph came to have them. -/
theorem Grown.topsort_eq {ops' : List SignedOp} (grown : Grown hash ops root graph)
    (causal : Causal hash graph) (grown' : Grown hash ops' root graph') (causal' : Causal hash graph')
    (same : graph.cgkaOps = graph'.cgkaOps) : graph.topsortGraph = graph'.topsortGraph := by
  have equal : graph.all = graph'.all := by
    have nodes : graph.all.nodes = graph'.all.nodes := Set.ext fun h => by
      rw [grown.mem_all causal, grown'.mem_all causal', same]
    have before : graph.all.before = graph'.all.before := funext fun h => Set.ext fun p => by
      refine causal.sound.mem_before.trans (Iff.trans ?_ causal'.sound.mem_before.symm)
      rw [same]
    show Layering.Graph.mk graph.all.nodes graph.all.before
      = Layering.Graph.mk graph'.all.nodes graph'.all.before
    rw [nodes, before]
  obtain ⟨head, member⟩ := grown.nonempty
  obtain ⟨epochs, isEpochs, sorts⟩ := causal.topsortForHeads_epochs grown.heads member
  obtain ⟨head', member'⟩ := grown'.nonempty
  obtain ⟨epochs', isEpochs', sorts'⟩ := causal'.topsortForHeads_epochs grown'.heads member'
  have isEpochs : Layering.Epochs Less graph.all epochs := isEpochs
  rw [equal] at isEpochs
  obtain rfl := isEpochs.unique isEpochs'
  unfold topsortGraph
  rw [sorts, sorts']
  unfold opsAt
  rw [same]

/-! ### One more operation -/

/-- **A graph with one more operation**, which follows all the heads. -/
structure Next (hash : SignedOp → OpDigest) (graph : CgkaOperationGraph) (op : SignedOp)
    (graph' : CgkaOperationGraph) : Prop where
  ops : ∀ h : OpDigest, graph'.cgkaOps[h]? = if h = hash op then some op else graph.cgkaOps[h]?
  new : hash op ∉ graph.cgkaOps
  covers : ∀ h ∈ graph.cgkaOpHeads, h ∈ op.payload.predecessors

section Next

variable {op : SignedOp}

theorem next_addLocalOp (new : hash op ∉ graph.cgkaOps)
    (covers : ∀ h ∈ graph.cgkaOpHeads, h ∈ op.payload.predecessors) :
    Next hash graph op (graph.addLocalOp hash op) :=
  ⟨fun _ => getElem?_insert_iff .., new, covers⟩

theorem next_addOp (new : hash op ∉ graph.cgkaOps)
    (covers : ∀ h ∈ graph.cgkaOpHeads, h ∈ op.payload.predecessors) :
    Next hash graph op (graph.addOp hash op op.payload.predecessors) :=
  ⟨fun _ => getElem?_insert_iff .., new, covers⟩

variable (next : Next hash graph op graph')

include next

theorem Next.kept {h : OpDigest} (known : h ∈ graph.cgkaOps) :
    graph'.cgkaOps[h]? = graph.cgkaOps[h]? := by
  rw [next.ops, if_neg]
  rintro rfl
  exact next.new known

theorem Next.found : graph'.cgkaOps[hash op]? = some op := by rw [next.ops, if_pos rfl]

theorem Next.mem_iff (h : OpDigest) : h ∈ graph'.cgkaOps ↔ h ∈ graph.cgkaOps ∨ h = hash op := by
  rw [mem_iff_exists, mem_iff_exists, next.ops]
  by_cases here : h = hash op
  · simp [here]
  · simp [here]

theorem Next.opsAt_eq {hashes : List OpDigest} (known : ∀ h ∈ hashes, h ∈ graph.cgkaOps) :
    graph'.opsAt hashes = graph.opsAt hashes :=
  List.filterMap_congr fun h member => next.kept (known h member)

variable {ops' : List SignedOp} (grown : Grown hash ops root graph) (causal : Causal hash graph)
  (grown' : Grown hash ops' root graph') (causal' : Causal hash graph')

include grown causal grown' causal'

theorem Next.extends : Layering.Extends graph.all graph'.all (hash op) where
  fresh isNode := next.new ((grown.mem_all causal _).mp isNode)
  nodes h := by rw [grown'.mem_all causal', grown.mem_all causal, next.mem_iff]
  before h isNode := by
    have known := (grown.mem_all causal _).mp isNode
    ext p
    refine causal'.sound.mem_before.trans (Iff.trans ?_ causal.sound.mem_before.symm)
    rw [next.kept known]
  apart h isNode precedes := by
    obtain ⟨op', found, member⟩ := causal.sound.mem_before.mp precedes
    exact next.new (grown.closed h op' found _ member)
  below p precedes := by
    obtain ⟨op', found, member⟩ := causal'.sound.mem_before.mp precedes
    obtain ⟨rank, rises⟩ := causal'.ranked
    have lower := rises _ op' found p member
    refine (grown.mem_all causal p).mpr ?_
    refine ((next.mem_iff p).mp (grown'.closed _ op' found p member)).resolve_right ?_
    rintro rfl
    omega
  covers h isNode := by
    rcases grown.covered h ((grown.mem_all causal h).mp isNode) with isHead | ⟨h', op', found, follows⟩
    · exact .inl (causal'.sound.mem_before.mpr ⟨op, next.found, next.covers h isHead⟩)
    · exact .inr ⟨h', (grown.mem_all causal h').mpr (mem_iff_exists.mpr ⟨op', found⟩),
        causal.sound.mem_before.mpr ⟨op', found, follows⟩⟩

theorem Next.sorted_of_epochs (free : ∀ p, p ∉ root.payload.predecessors)
    {rest : List (List OpDigest)}
    (isEpochs : Layering.Epochs Less graph'.all ([hash root] :: rest ++ [[hash op]]))
    (known : ∀ h ∈ rest.flatten, h ∈ graph.cgkaOps) :
    Sorted hash root graph' (rest.map graph.opsAt ++ [[op]]) := by
  obtain ⟨head, member⟩ := grown'.nonempty
  obtain ⟨epochs, isEpochs', sorts⟩ := causal'.topsortForHeads_epochs grown'.heads member
  obtain ⟨rest', split, sorted⟩ := grown'.sorted_of_epochs causal' isEpochs' sorts free
  obtain rfl : rest ++ [[hash op]] = rest' :=
    (List.cons.inj ((isEpochs.unique isEpochs').trans split)).2
  have same : (rest ++ [[hash op]]).map graph'.opsAt = rest.map graph.opsAt ++ [[op]] := by
    rw [List.map_append, List.map_singleton, opsAt_single next.found]
    congr 1
    exact List.map_congr_left fun epoch inside => next.opsAt_eq fun h member =>
      known h (List.mem_flatten.mpr ⟨epoch, inside, member⟩)
  rwa [same] at sorted

/-- **An operation that follows nothing but heads** is an epoch after those of the graph. -/
theorem Next.sorted_next (free : ∀ p, p ∉ root.payload.predecessors)
    (tops : ∀ p ∈ op.payload.predecessors, ∀ (h : OpDigest) (op' : SignedOp),
      graph.cgkaOps[h]? = some op' → p ∉ op'.payload.predecessors) {rest : List CgkaEpoch}
    (sorted : Sorted hash root graph rest) : Sorted hash root graph' (rest ++ [[op]]) := by
  obtain ⟨head, member⟩ := grown.nonempty
  obtain ⟨epochs, isEpochs, sorts⟩ := causal.topsortForHeads_epochs grown.heads member
  obtain ⟨hashes, rfl, sorted'⟩ := grown.sorted_of_epochs causal isEpochs sorts free
  obtain rfl : hashes.map graph.opsAt = rest :=
    (List.cons.inj (Except.ok.inj (sorted'.sorts.symm.trans sorted.sorts))).2
  have ranked := causal.sound.rankedHistory graph.cgkaOpHeads grown.heads
  have isEpochs' := (next.extends grown causal grown' causal').epochs (fun p precedes h isNode below => by
    obtain ⟨op', found, before⟩ := causal'.sound.mem_before.mp precedes
    rw [next.found] at found
    obtain rfl := Option.some.inj found
    obtain ⟨op', found', before'⟩ := causal.sound.mem_before.mp below
    exact tops p before h op' found' before') ranked isEpochs
  refine next.sorted_of_epochs grown causal grown' causal' free isEpochs' fun h inside => ?_
  exact (grown.mem_all causal h).mp
    ((isEpochs.mem_flatten h).mp (List.mem_append_right _ inside))

end Next

end CgkaOperationGraph

/-! ### The tree of a replay -/

namespace Cgka

open CgkaOperationGraph

variable {S : Suite}

def replayedTree (cgka : Cgka) : Res BeeKem := do
  let epochs ← cgka.opsGraph.topsortGraph
  let tree ← BeeKem.new cgka.docId cgka.originalMember.1 cgka.originalMember.2
  tree.afterEpochs epochs.tail

variable {cgka : Cgka} {rest : List CgkaEpoch}

theorem replayedTree_eq {root : SignedOp}
    (sorted : Sorted S.hashOp root cgka.opsGraph rest) :
    cgka.replayedTree
      = (BeeKem.new cgka.docId cgka.originalMember.1 cgka.originalMember.2).bind fun tree =>
          tree.afterEpochs rest := by
  unfold replayedTree
  rw [sorted.sorts]
  rfl

theorem applyEpochs_known {op : SignedOp}
    (known : cgka.opsGraph.containsOpHash (S.hashOp op) = true) (rest : List CgkaEpoch) :
    applyEpochs S ([op] :: rest) cgka = applyEpochs S rest cgka := by
  have here : applyEpoch S [op] cgka = .ok () cgka := by
    show EStateM.bind (EStateM.bind (applyOperation S op) _) _ cgka = _
    unfold EStateM.bind
    rw [applyOperation_eq, known]
    rfl
  show EStateM.bind (applyEpoch S [op]) _ cgka = _
  unfold EStateM.bind
  rw [here]

/-- The replica from which a replay starts, with the tree of the first member. -/
def started (S : Suite) (cgka : Cgka) (tree : BeeKem) : Cgka :=
  { cgka with
    tree
    opsGraph := CgkaOperationGraph.new.addLocalOp S.hashOp cgka.initAddOp
    pendingOpsForStructuralChange := false
    pcsKeys := ∅
    pcsKeyOps := ∅ }

theorem rebuildStart_eq (cgka : Cgka) :
    rebuildStart S cgka
      = (BeeKem.new cgka.docId cgka.originalMember.1 cgka.originalMember.2).map (cgka.started S) := by
  unfold rebuildStart newFromInitAdd
  simp only [bind, Except.bind]
  cases BeeKem.new cgka.docId cgka.originalMember.1 cgka.originalMember.2 <;> rfl

/-- **Epochs after the first one, applied to the replica from which a replay starts.** -/
theorem applyEpochs_started
    (distinct : ((cgka.initAddOp :: rest.flatten).map S.hashOp).Nodup) (tree : BeeKem) :
    Computes (applyEpochs S ([cgka.initAddOp] :: rest) (cgka.started S tree))
      (tree.afterEpochs rest) ((cgka.started S tree).grownBy S rest.flatten) := by
  have mem_iff (h : OpDigest) : h ∈ (cgka.started S tree).opsGraph.cgkaOps
      ↔ h = S.hashOp cgka.initAddOp := by
    refine mem_map_insert_iff.trans (or_iff_left ?_)
    simp [CgkaOperationGraph.new]
  rw [List.map_cons, List.nodup_cons] at distinct
  rw [applyEpochs_known (ExtTreeMap.contains_iff_mem.mpr ((mem_iff _).mpr rfl))]
  refine applyEpochs_computes (fun op member isKnown => ?_) distinct.2
  exact distinct.1 ((mem_iff _).mp isKnown ▸ List.mem_map_of_mem member)

theorem rebuilt_tree {result : Cgka}
    (sorted : Sorted S.hashOp cgka.initAddOp cgka.opsGraph rest)
    (rebuilds : rebuilt S cgka = .ok result) : cgka.replayedTree = .ok result.tree := by
  obtain ⟨epochs, start, applied, sorts, starts, applies, keys⟩ := rebuilt_ok rebuilds
  obtain rfl := Except.ok.inj (sorted.sorts.symm.trans sorts)
  rw [rebuildStart_eq] at starts
  rw [replayedTree_eq sorted, keys.tree]
  cases new : BeeKem.new cgka.docId cgka.originalMember.1 cgka.originalMember.2 with
  | error fault =>
    rw [new] at starts
    simp [Except.map] at starts
  | ok tree =>
    rw [new] at starts
    obtain rfl := Except.ok.inj starts
    have computes := applyEpochs_started sorted.distinct tree
    rw [applies] at computes
    show tree.afterEpochs rest = _
    cases after : tree.afterEpochs rest with
    | error fault =>
      rw [after] at computes
      obtain ⟨left, fails⟩ := computes
      cases fails
    | ok final =>
      rw [after] at computes
      obtain ⟨-, rfl⟩ := EStateM.Result.ok.inj computes
      rfl

variable {mid : Cgka}

theorem replayIfNeeded_tree
    (sorted : Sorted S.hashOp cgka.initAddOp cgka.opsGraph rest)
    (current : cgka.shouldReplay = false → cgka.replayedTree = .ok cgka.tree)
    (replays : replayIfNeeded S cgka = .ok () mid) : cgka.replayedTree = .ok mid.tree := by
  rw [replayIfNeeded_eq] at replays
  split at replays
  · rw [replayOpsGraph_eq] at replays
    cases rebuilds : rebuilt S cgka with
    | error fault =>
      rw [rebuilds] at replays
      cases replays
    | ok result =>
      rw [rebuilds] at replays
      obtain ⟨-, rfl⟩ := EStateM.Result.ok.inj replays
      show cgka.replayedTree = .ok result.tree
      exact rebuilt_tree sorted rebuilds
  · rename_i settled
    obtain ⟨-, rfl⟩ := EStateM.Result.ok.inj replays
    exact current (Bool.eq_false_iff.mpr settled)

/-- What was made here is what the operation does. -/
theorem Makes.applies {payload : CgkaOperation} {tree : BeeKem} {h : Nat}
    (makes : Makes S mid payload tree) (shaped : mid.tree.Shaped h) :
    applyToTree mid.tree payload = .ok tree := by
  cases makes with
  | add pushes => simp only [applyToTree, pushes, bind, Except.bind, pure, Except.pure]
  | remove several removes => simp only [applyToTree, removes, bind, Except.bind, pure, Except.pure]
  | update encrypts => exact shaped.encryptPath_applyPath encrypts

end Cgka

end KeyhiveEval.Beekem
