/-
**The epochs of the operation graph.**

`topsortForHeads` collects the ancestors of some heads and pops them layer by layer. On a causal graph it
returns, and what it returns are the epochs of the ancestors as `Lib.Layering` defines them: they depend
on the ancestors only, they list every ancestor once and after its predecessors, and an
operation that follows all the heads is an epoch of its own at the end.

* `Sound` — operations under their digests, closed under predecessors and without a circle. `Causal` — and with one
  operation that has no predecessors.
* `topsortForHeadsIn` — the sort, with the order in which hash sets are walked.
* `Sound.topsortForHeadsIn_eq` — in any order the code computes the epochs of the operations that have an edge at all,
  or lists the heads if there is none. `Causal.topsortForHeads_epochs` — on a causal graph these are the epochs of
  `history graph heads`.
* `Sound.decomposed` — what the epochs of operations are.
-/

import KeyhiveEval.Beekem.Operation
import KeyhiveEval.Beekem.Popping

namespace KeyhiveEval.Beekem

open Std OrderedSets

set_option linter.unusedSectionVars false

/-! ### Causal graphs -/

namespace CgkaOperationGraph

/-- What comes immediately before an operation. -/
def before (graph : CgkaOperationGraph) (hash : OpDigest) : Set OpDigest :=
  {pred | ∃ preds, graph.cgkaOpsPredecessors[hash]? = some preds ∧ pred ∈ preds}

/-- Some operations and their ancestors. -/
inductive History (graph : CgkaOperationGraph) (heads : ExtTreeSet OpDigest) : OpDigest → Prop
  | head {hash : OpDigest} (member : hash ∈ heads) : History graph heads hash
  | before {hash pred : OpDigest} (known : History graph heads hash)
      (precedes : pred ∈ graph.before hash) : History graph heads pred

/-- The ancestors of some operations, as a graph. -/
def history (graph : CgkaOperationGraph) (heads : ExtTreeSet OpDigest) : Layering.Graph OpDigest :=
  ⟨{hash | History graph heads hash}, graph.before⟩

structure Causal (hash : SignedOp → OpDigest) (graph : CgkaOperationGraph) : Prop where
  keyed : ∀ (h : OpDigest) (op : SignedOp), graph.cgkaOps[h]? = some op → hash op = h
  preds : ∀ h : OpDigest, graph.cgkaOpsPredecessors[h]?
    = graph.cgkaOps[h]?.map fun op => op.payload.predecessors
  closed : ∀ (h : OpDigest) (op : SignedOp), graph.cgkaOps[h]? = some op →
    ∀ p ∈ op.payload.predecessors, p ∈ graph.cgkaOps
  ranked : ∃ rank : OpDigest → Nat, ∀ (h : OpDigest) (op : SignedOp), graph.cgkaOps[h]? = some op →
    ∀ p ∈ op.payload.predecessors, rank p < rank h
  root : ∃ root : OpDigest, ∀ (h : OpDigest) (op : SignedOp), graph.cgkaOps[h]? = some op →
    ((∀ p, p ∉ op.payload.predecessors) ↔ h = root)

/-- **A sound graph**: a causal one, but for the operations without predecessors, of which there may be several. -/
structure Sound (hash : SignedOp → OpDigest) (graph : CgkaOperationGraph) : Prop where
  keyed : ∀ (h : OpDigest) (op : SignedOp), graph.cgkaOps[h]? = some op → hash op = h
  preds : ∀ h : OpDigest, graph.cgkaOpsPredecessors[h]?
    = graph.cgkaOps[h]?.map fun op => op.payload.predecessors
  closed : ∀ (h : OpDigest) (op : SignedOp), graph.cgkaOps[h]? = some op →
    ∀ p ∈ op.payload.predecessors, p ∈ graph.cgkaOps
  ranked : ∃ rank : OpDigest → Nat, ∀ (h : OpDigest) (op : SignedOp), graph.cgkaOps[h]? = some op →
    ∀ p ∈ op.payload.predecessors, rank p < rank h

section Sound

variable {hash : SignedOp → OpDigest} {graph : CgkaOperationGraph}

theorem Causal.sound (causal : Causal hash graph) : Sound hash graph :=
  ⟨causal.keyed, causal.preds, causal.closed, causal.ranked⟩

variable (sound : Sound hash graph)

include sound

theorem Sound.mem_before {h p : OpDigest} :
    p ∈ graph.before h ↔ ∃ op, graph.cgkaOps[h]? = some op ∧ p ∈ op.payload.predecessors := by
  unfold before
  rw [Set.mem_ofPred_eq, sound.preds]
  constructor
  · rintro ⟨preds, found, member⟩
    obtain ⟨op, present, rfl⟩ := Option.map_eq_some_iff.mp found
    exact ⟨op, present, member⟩
  · rintro ⟨op, present, member⟩
    exact ⟨_, by rw [present]; rfl, member⟩

theorem Sound.known_of_history {heads : ExtTreeSet OpDigest}
    (known : ∀ h ∈ heads, h ∈ graph.cgkaOps) {h : OpDigest} (isHistory : History graph heads h) :
    h ∈ graph.cgkaOps := by
  cases isHistory with
  | head member => exact known h member
  | before _ precedes =>
    obtain ⟨op, present, member⟩ := sound.mem_before.mp precedes
    exact sound.closed _ op present h member

theorem Sound.mem_preds {h : OpDigest} : h ∈ graph.cgkaOpsPredecessors ↔ h ∈ graph.cgkaOps := by
  rw [mem_iff_exists, mem_iff_exists, sound.preds]
  simp [Option.map_eq_some_iff]

theorem Sound.rankedOn {nodes : Set OpDigest} (known : ∀ h ∈ nodes, h ∈ graph.cgkaOps) :
    Layering.Ranked ⟨nodes, graph.before⟩ := by
  obtain ⟨rank, rises⟩ := sound.ranked
  refine ⟨rank, ((graph.cgkaOps.keys.map rank).foldr max 0), fun y _ x before => ?_, fun x isNode => ?_⟩
  · obtain ⟨op, present, member⟩ := sound.mem_before.mp before
    exact rises y op present x member
  · have member : rank x ∈ graph.cgkaOps.keys.map rank :=
      List.mem_map_of_mem (ExtTreeMap.mem_keys.mpr (known x isNode))
    exact List.le_max_of_le' 0 member (Nat.le_refl _)

theorem Sound.rankedHistory (heads : ExtTreeSet OpDigest) (known : ∀ h ∈ heads, h ∈ graph.cgkaOps) :
    Layering.Ranked (graph.history heads) :=
  sound.rankedOn fun _ isHistory => sound.known_of_history known isHistory

end Sound

/-! ### Any order of the hash sets -/

/-- **The order in which hash sets yield their elements.** -/
structure IterOrder where
  list : ExtTreeSet OpDigest → List OpDigest
  perm : ∀ set, (list set).Perm set.toList

namespace IterOrder

def sorted : IterOrder := ⟨fun set => set.toList, fun _ => .refl _⟩

theorem sorted_list (set : ExtTreeSet OpDigest) : sorted.list set = set.toList := rfl

variable (order : IterOrder) {set : ExtTreeSet OpDigest}

theorem mem_list {x : OpDigest} : x ∈ order.list set ↔ x ∈ set := by
  rw [(order.perm set).mem_iff, ExtTreeSet.mem_toList]

theorem nodup_list : (order.list set).Nodup :=
  (order.perm set).nodup_iff.mpr
    (ExtTreeSet.distinct_toList.imp fun {a b} apart (same : a = b) => apart (by simp [same]))

end IterOrder

section Order

variable (order : IterOrder)

def collectInitIn (heads : ExtTreeSet OpDigest) : Collect :=
  { dependencies := .new
    successors := (order.list heads).foldl (fun successors head => successors.insert head ∅) ∅
    frontier := order.list heads
    seen := heads }

def collectLoopIn (graph : CgkaOperationGraph) : Nat → Collect → Res Collect
  | 0, _ => .error .diverge
  | fuel + 1, state =>
    match state.frontier with
    | [] => return state
    | opHash :: frontier =>
      match graph.cgkaOpsPredecessors[opHash]? with
      | none => .error (.err .operationNotFound)
      | some preds =>
        collectLoopIn graph fuel ((order.list preds).foldl (collectPred opHash) { state with frontier })

def layersLoopIn (graph : CgkaOperationGraph) : Nat → Layers → Res (List CgkaEpoch)
  | 0, _ => .error .diverge
  | fuel + 1, state =>
    if state.dependencies.isEmpty then return pushEpoch state.epochs state.nextEpoch
    else do
      let nextSet := order.list (.ofList state.dependencies.ready)
      let dependencies := nextSet.foldl TopologicalSort.pop state.dependencies
      let state ← graph.takeLayer { state with dependencies } (sortDigests nextSet)
      layersLoopIn graph fuel state

def topsortForHeadsIn (graph : CgkaOperationGraph) (heads : ExtTreeSet OpDigest) : Res (List CgkaEpoch) := do
  let state ← graph.collectLoopIn order (graph.cgkaOpsPredecessors.size + 1) (collectInitIn order heads)
  if state.dependencies.isEmpty then
    match graph.opsFor (order.list heads) with
    | .error _ => .error (.panic "head to be present")
    | .ok [] => .error (.panic "to have at least one op hash")
    | .ok ops => return [ops]
  else
    let epochs ← graph.layersLoopIn order (state.dependencies.deps.size + 1)
      { dependencies := state.dependencies
        successors := state.successors
        epochHeads := ∅
        nextEpoch := []
        epochs := [] }
    if epochs.isEmpty then .error (.panic "to have at least one op hash") else return epochs

def topsortGraphIn (graph : CgkaOperationGraph) : Res (List CgkaEpoch) :=
  graph.topsortForHeadsIn order graph.cgkaOpHeads

end Order

theorem collectLoopIn_sorted (graph : CgkaOperationGraph) (fuel : Nat) (state : Collect) :
    graph.collectLoopIn .sorted fuel state = graph.collectLoop fuel state := by
  induction fuel generalizing state with
  | zero => rfl
  | succ fuel ih =>
    unfold collectLoopIn collectLoop
    cases state.frontier with
    | nil => rfl
    | cons opHash frontier =>
      dsimp only
      cases graph.cgkaOpsPredecessors[opHash]? with
      | none => rfl
      | some preds =>
        dsimp only
        rw [ih, IterOrder.sorted_list, ExtTreeSet.foldl_eq_foldl_toList]

theorem toList_ofList_ready (sort : TopologicalSort OpDigest) :
    (ExtTreeSet.ofList sort.ready : ExtTreeSet OpDigest).toList = sort.ready := by
  have sorted : (ExtTreeSet.ofList sort.ready : ExtTreeSet OpDigest).toList.Pairwise Less :=
    ExtTreeSet.ordered_toList
  refine List.Perm.eq_of_pairwise (fun x y _ _ less greater => ?_) sorted sort.sorted_ready ?_
  · exact absurd greater (Std.Asymm.asymm x y less)
  · rw [← IterOrder.sorted_list, List.perm_ext_iff_of_nodup IterOrder.sorted.nodup_list sort.nodup_ready]
    exact fun x => IterOrder.sorted.mem_list.trans mem_ofList_iff

theorem layersLoopIn_sorted (graph : CgkaOperationGraph) (fuel : Nat) (state : Layers) :
    graph.layersLoopIn .sorted fuel state = graph.layersLoop fuel state := by
  induction fuel generalizing state with
  | zero => rfl
  | succ fuel ih =>
    unfold layersLoopIn layersLoop
    simp only [ih, IterOrder.sorted_list, toList_ofList_ready, TopologicalSort.popAll]

/-- In the order of the digests, the sort is the one above. -/
theorem topsortForHeadsIn_sorted (graph : CgkaOperationGraph) (heads : ExtTreeSet OpDigest) :
    graph.topsortForHeadsIn .sorted heads = graph.topsortForHeads heads := by
  have init : collectInitIn .sorted heads = collectInit heads := by
    unfold collectInitIn collectInit
    rw [ExtTreeSet.foldl_eq_foldl_toList]
    rfl
  unfold topsortForHeadsIn topsortForHeads
  rw [collectLoopIn_sorted, init]
  refine bind_congr fun state => ?_
  rewrite [layersLoopIn_sorted, IterOrder.sorted_list]
  cases graph.opsFor heads.toList with
  | error => rfl
  | ok ops => cases ops <;> rfl

/-! ### Collecting the ancestors -/

/-- The state records exactly the given edges. -/
structure Recorded (edge : OpDigest → OpDigest → Prop) (state : Collect) : Prop where
  nodes : ∀ x, x ∈ state.dependencies.deps ↔ ∃ y, edge x y ∨ edge y x
  deps : ∀ x y, y ∈ state.dependencies.deps.getD x ∅ ↔ edge y x
  rdeps : ∀ x y, y ∈ state.dependencies.rdeps.getD x ∅ ↔ edge x y
  successors : ∀ x y, y ∈ state.successors.getD x ∅ ↔ edge x y

variable {edge : OpDigest → OpDigest → Prop} {state : Collect}

theorem Recorded.step
    (recorded : Recorded edge state) (opHash pred : OpDigest) :
    Recorded (fun x y => edge x y ∨ (x = pred ∧ y = opHash)) (collectPred opHash state pred) := by
  have fields : (collectPred opHash state pred).dependencies
        = state.dependencies.addDependency pred opHash ∧
      (collectPred opHash state pred).successors = insertAt state.successors pred opHash := by
    unfold collectPred
    dsimp only
    split <;> exact ⟨rfl, rfl⟩
  refine ⟨fun x => ?_, fun x y => ?_, fun x y => ?_, fun x y => ?_⟩
  · rw [fields.1]
    simp only [TopologicalSort.addDependency, mem_insertAt, mem_orDefault, recorded.nodes]
    constructor
    · rintro (rfl | rfl | ⟨y, some | some⟩)
      · exact ⟨pred, .inr (.inr ⟨rfl, rfl⟩)⟩
      · exact ⟨opHash, .inl (.inr ⟨rfl, rfl⟩)⟩
      · exact ⟨y, .inl (.inl some)⟩
      · exact ⟨y, .inr (.inl some)⟩
    · rintro ⟨y, (some | ⟨rfl, -⟩) | some | ⟨-, rfl⟩⟩
      · exact .inr (.inr ⟨y, .inl some⟩)
      · exact .inr (.inl rfl)
      · exact .inr (.inr ⟨y, .inr some⟩)
      · exact .inl rfl
  · rw [fields.1]
    simp only [TopologicalSort.addDependency, mem_getD_insertAt, getD_orDefault, recorded.deps]
    tauto
  · rw [fields.1]
    simp only [TopologicalSort.addDependency, mem_getD_insertAt, getD_orDefault, recorded.rdeps]
    tauto
  · rw [fields.2]
    simp only [mem_getD_insertAt, recorded.successors]
    tauto

theorem Recorded.congr {edge' : OpDigest → OpDigest → Prop}
    (recorded : Recorded edge state) (same : ∀ x y, edge x y ↔ edge' x y) :
    Recorded edge' state := by
  obtain rfl : edge = edge' := by
    funext x y
    exact propext (same x y)
  exact recorded

theorem Recorded.steps
    (recorded : Recorded edge state) (opHash : OpDigest) (preds : List OpDigest) :
    Recorded (fun x y => edge x y ∨ (x ∈ preds ∧ y = opHash))
      (preds.foldl (collectPred opHash) state) := by
  induction preds generalizing edge state with
  | nil => exact recorded.congr fun x y => by simp
  | cons pred preds ih =>
    refine (ih (recorded.step opHash pred)).congr fun x y => ?_
    rw [List.mem_cons]
    tauto

theorem collectPreds_frontier (opHash : OpDigest) (preds : List OpDigest) (state : Collect) :
    ∃ new : List OpDigest,
      (preds.foldl (collectPred opHash) state).frontier = state.frontier ++ new ∧ new.Nodup ∧
      (∀ x, x ∈ new ↔ x ∈ preds ∧ x ∉ state.seen) ∧
      ∀ x, x ∈ (preds.foldl (collectPred opHash) state).seen ↔ x ∈ state.seen ∨ x ∈ preds := by
  induction preds generalizing state with
  | nil => exact ⟨[], by simp, List.nodup_nil, by simp, by simp⟩
  | cons pred preds ih =>
    obtain ⟨new, frontier, distinct, mem_new, mem_seen⟩ := ih (collectPred opHash state pred)
    by_cases seen : pred ∈ state.seen
    · have same : (collectPred opHash state pred).frontier = state.frontier ∧
          (collectPred opHash state pred).seen = state.seen := by
        unfold collectPred
        dsimp only
        rw [if_pos (ExtTreeSet.contains_iff_mem.mpr seen)]
        exact ⟨rfl, rfl⟩
      rw [same.1] at frontier
      rw [same.2] at mem_new mem_seen
      refine ⟨new, frontier, distinct, fun x => ?_, fun x => ?_⟩
      · rw [mem_new, List.mem_cons]
        constructor
        · exact fun both => ⟨.inr both.1, both.2⟩
        · rintro ⟨rfl | member, fresh⟩
          · exact absurd seen fresh
          · exact ⟨member, fresh⟩
      · rw [List.foldl_cons, mem_seen, List.mem_cons]
        constructor
        · rintro (old | member)
          · exact .inl old
          · exact .inr (.inr member)
        · rintro (old | rfl | member)
          · exact .inl old
          · exact .inl seen
          · exact .inr member
    · have step : (collectPred opHash state pred).frontier = state.frontier ++ [pred] ∧
          (collectPred opHash state pred).seen = state.seen.insert pred := by
        unfold collectPred
        dsimp only
        rw [if_neg fun contains => seen (ExtTreeSet.contains_iff_mem.mp contains)]
        exact ⟨rfl, rfl⟩
      rw [step.1, List.append_assoc] at frontier
      rw [step.2] at mem_new mem_seen
      refine ⟨pred :: new, frontier, List.nodup_cons.mpr ⟨fun member => ?_, distinct⟩, fun x => ?_,
        fun x => ?_⟩
      · exact ((mem_new pred).mp member).2 (mem_insert_iff.mpr (.inl rfl))
      · rw [List.mem_cons, mem_new, mem_insert_iff, List.mem_cons]
        constructor
        · rintro (rfl | ⟨member, fresh⟩)
          · exact ⟨.inl rfl, seen⟩
          · exact ⟨.inr member, fun old => fresh (.inr old)⟩
        · rintro ⟨rfl | member, fresh⟩
          · exact .inl rfl
          · by_cases here : x = pred
            · exact .inl here
            · exact .inr ⟨member, fun old => old.elim here fresh⟩
      · rw [List.foldl_cons, mem_seen, mem_insert_iff, List.mem_cons]
        tauto

/-- **The state of the walk**: the operations visited so far and the edges to what precedes them. -/
structure Walk (graph : CgkaOperationGraph) (heads : ExtTreeSet OpDigest) (visited : List OpDigest)
    (state : Collect) : Prop where
  seen : ∀ x, x ∈ state.seen ↔ x ∈ visited ∨ x ∈ state.frontier
  distinct : (visited ++ state.frontier).Nodup
  known : ∀ x ∈ state.seen, History graph heads x
  heads : ∀ x ∈ heads, x ∈ state.seen
  closed : ∀ x ∈ visited, ∀ p ∈ graph.before x, p ∈ state.seen
  recorded : Recorded (fun x y => y ∈ visited ∧ x ∈ graph.before y) state

theorem getD_foldl_insert_empty (list : List OpDigest)
    (map : ExtTreeMap OpDigest (ExtTreeSet OpDigest)) (x : OpDigest) (empty : map.getD x ∅ = ∅) :
    (list.foldl (fun map head => map.insert head ∅) map).getD x ∅ = ∅ := by
  induction list generalizing map with
  | nil => exact empty
  | cons a list ih =>
    refine ih _ ?_
    rw [getD_insert_iff, empty]
    split <;> rfl

theorem walk_collectInit (order : IterOrder) (graph : CgkaOperationGraph) (heads : ExtTreeSet OpDigest) :
    Walk graph heads [] (collectInitIn order heads) := by
  refine ⟨fun x => ?_, order.nodup_list, fun x member => .head member, fun x member => member, by simp, ?_⟩
  · show x ∈ heads ↔ x ∈ [] ∨ x ∈ order.list heads
    rw [order.mem_list]
    simp
  · refine ⟨fun x => ?_, fun x y => ?_, fun x y => ?_, fun x y => ?_⟩
    · show x ∈ (∅ : ExtTreeMap OpDigest (ExtTreeSet OpDigest)) ↔ _
      simp
    · show y ∈ (∅ : ExtTreeMap OpDigest (ExtTreeSet OpDigest)).getD x ∅ ↔ _
      simp
    · show y ∈ (∅ : ExtTreeMap OpDigest (ExtTreeSet OpDigest)).getD x ∅ ↔ _
      simp
    · show y ∈ ((order.list heads).foldl (fun successors head => successors.insert head ∅)
        (∅ : ExtTreeMap OpDigest (ExtTreeSet OpDigest))).getD x ∅ ↔ _
      rw [getD_foldl_insert_empty _ _ _ (by simp)]
      simp

theorem Walk.visit (order : IterOrder) {graph : CgkaOperationGraph} {heads : ExtTreeSet OpDigest}
    {visited frontier : List OpDigest} {opHash : OpDigest}
    {preds : ExtTreeSet OpDigest} (walk : Walk graph heads visited state)
    (first : state.frontier = opHash :: frontier)
    (found : graph.cgkaOpsPredecessors[opHash]? = some preds) :
    Walk graph heads (visited ++ [opHash])
      ((order.list preds).foldl (collectPred opHash) { state with frontier }) := by
  have mem_before : ∀ p, p ∈ graph.before opHash ↔ p ∈ order.list preds := by
    intro p
    rw [order.mem_list]
    constructor
    · rintro ⟨preds', found', member⟩
      obtain rfl := Option.some.inj (found.symm.trans found')
      exact member
    · exact fun member => ⟨preds, found, member⟩
  obtain ⟨new, frontier_eq, distinct, mem_new, mem_seen⟩ :=
    collectPreds_frontier opHash (order.list preds) { state with frontier }
  have current : opHash ∈ state.seen := (walk.seen opHash).mpr (.inr (by simp [first]))
  have seen (x : OpDigest) : x ∈ state.seen ↔ x ∈ visited ∨ x = opHash ∨ x ∈ frontier := by
    rw [walk.seen, first, List.mem_cons]
  refine ⟨fun x => ?_, ?_, fun x member => ?_, fun x member => ?_, fun x member p precedes => ?_, ?_⟩
  · rw [mem_seen, frontier_eq, List.mem_append, List.mem_append, List.mem_singleton, mem_new]
    show x ∈ state.seen ∨ _ ↔ _ ∨ x ∈ frontier ∨ x ∈ order.list preds ∧ x ∉ state.seen
    constructor
    · rintro (old | member)
      · rcases (seen x).mp old with here | here | here
        · exact .inl (.inl here)
        · exact .inl (.inr here)
        · exact .inr (.inl here)
      · by_cases old : x ∈ state.seen
        · rcases (seen x).mp old with here | here | here
          · exact .inl (.inl here)
          · exact .inl (.inr here)
          · exact .inr (.inl here)
        · exact .inr (.inr ⟨member, old⟩)
    · rintro ((here | here) | here | here)
      · exact .inl ((seen x).mpr (.inl here))
      · exact .inl ((seen x).mpr (.inr (.inl here)))
      · exact .inl ((seen x).mpr (.inr (.inr here)))
      · exact .inr here.1
  · rw [frontier_eq]
    have before := walk.distinct
    rw [first] at before
    have regroup : visited ++ [opHash] ++ (frontier ++ new)
        = (visited ++ opHash :: frontier) ++ new := by simp
    show (visited ++ [opHash] ++ (frontier ++ new)).Nodup
    rw [regroup]
    refine List.nodup_append.mpr ⟨before, distinct, fun x old y fresh same => ?_⟩
    refine ((mem_new y).mp fresh).2 ?_
    rw [← same]
    show x ∈ state.seen
    rw [walk.seen, first]
    exact List.mem_append.mp old
  · rcases (mem_seen x).mp member with old | new
    · exact walk.known x old
    · exact .before (walk.known opHash current) ((mem_before x).mpr new)
  · exact (mem_seen x).mpr (.inl (walk.heads x member))
  · rcases List.mem_append.mp member with old | here
    · exact (mem_seen p).mpr (.inl (walk.closed x old p precedes))
    · rw [List.mem_singleton] at here
      exact (mem_seen p).mpr (.inr ((mem_before p).mp (here ▸ precedes)))
  · have unchanged : Recorded (fun x y => y ∈ visited ∧ x ∈ graph.before y)
        { state with frontier } :=
      ⟨walk.recorded.nodes, walk.recorded.deps, walk.recorded.rdeps, walk.recorded.successors⟩
    refine (unchanged.steps opHash (order.list preds)).congr fun x y => ?_
    rw [List.mem_append, List.mem_singleton, ← mem_before]
    constructor
    · rintro (old | ⟨member, rfl⟩)
      · exact ⟨.inl old.1, old.2⟩
      · exact ⟨.inr rfl, member⟩
    · rintro ⟨old | rfl, member⟩
      · exact .inl ⟨old, member⟩
      · exact .inr ⟨member, rfl⟩

section Walk

variable {hash : SignedOp → OpDigest} {graph : CgkaOperationGraph} (sound : Sound hash graph)
  {heads : ExtTreeSet OpDigest} (known : ∀ h ∈ heads, h ∈ graph.cgkaOps)

include sound known

variable {visited : List OpDigest} {state : Collect}

theorem Sound.known_of_walk
    (walk : Walk graph heads visited state) {x : OpDigest}
    (member : x ∈ visited ++ state.frontier) : x ∈ graph.cgkaOpsPredecessors :=
  sound.mem_preds.mpr (sound.known_of_history known
    (walk.known x ((walk.seen x).mpr (List.mem_append.mp member))))

/-- **The walk ends**, and it has visited exactly the ancestors. -/
theorem Sound.collectLoop_ok (order : IterOrder) {fuel : Nat}
    (walk : Walk graph heads visited state)
    (enough : graph.cgkaOpsPredecessors.size < fuel + visited.length) :
    ∃ state', graph.collectLoopIn order fuel state = .ok state' ∧
      Recorded (fun x y => History graph heads y ∧ x ∈ graph.before y) state' := by
  induction fuel generalizing visited state with
  | zero =>
    have bound := length_le_size walk.distinct fun x => sound.known_of_walk known walk
    rw [List.length_append] at bound
    omega
  | succ fuel ih =>
    unfold collectLoopIn
    cases first : state.frontier with
    | nil =>
      have visited_of_seen (z : OpDigest) (member : z ∈ state.seen) : z ∈ visited := by
        have := (walk.seen z).mp member
        rwa [first, List.mem_nil_iff, or_false] at this
      have all (z : OpDigest) (isHistory : History graph heads z) : z ∈ visited := by
        induction isHistory with
        | head member => exact visited_of_seen _ (walk.heads _ member)
        | before _ precedes ih => exact visited_of_seen _ (walk.closed _ ih _ precedes)
      refine ⟨state, rfl, walk.recorded.congr fun x y => and_congr_left fun _ => ?_⟩
      exact ⟨fun member => walk.known y ((walk.seen y).mpr (.inl member)), all y⟩
    | cons opHash frontier =>
      obtain ⟨preds, found⟩ :=
        mem_iff_exists.mp (sound.known_of_walk known walk (x := opHash) (by simp [first]))
      simp only [found]
      refine ih (walk.visit order first found) ?_
      rw [List.length_append, List.length_singleton]
      omega

end Walk

/-! ### Grouping the layers -/

theorem mem_getD_foldl_selfSucceed (list : List OpDigest)
    (map : ExtTreeMap OpDigest (ExtTreeSet OpDigest)) (x y : OpDigest) :
    y ∈ (list.foldl selfSucceed map).getD x ∅ ↔
      y ∈ map.getD x ∅ ∨ (x ∈ list ∧ y = x ∧ ∀ z, z ∉ map.getD x ∅) := by
  induction list generalizing map with
  | nil => simp
  | cons a list ih =>
    rw [List.foldl_cons, ih, List.mem_cons]
    unfold selfSucceed
    by_cases empty : (map.getD a ∅).isEmpty = true
    · have none := isEmpty_iff_forall_not_mem.mp empty
      rw [if_pos empty]
      simp only [mem_getD_insertAt]
      by_cases here : x = a
      · subst here
        simp only [none, not_false_eq_true, true_and, or_false]
        constructor
        · rintro (same | ⟨-, -, absent⟩)
          · exact .inr ⟨.inl trivial, same, fun _ => trivial⟩
          · exact absurd rfl (absent x)
        · rintro (false | ⟨-, same, -⟩)
          · exact false.elim
          · exact .inl same
      · simp [here]
    · rw [if_neg empty]
      have some : ∃ z, z ∈ map.getD a ∅ := isEmpty_eq_false_iff.mp (Bool.eq_false_iff.mpr empty)
      constructor
      · rintro (member | ⟨member, same, none⟩)
        · exact .inl member
        · exact .inr ⟨.inr member, same, none⟩
      · rintro (member | ⟨rfl | member, same, none⟩)
        · exact .inl member
        · obtain ⟨z, member⟩ := some
          exact absurd member (none z)
        · exact .inr ⟨member, same, none⟩

theorem mem_getD_dropSuccessor (epochHeads : ExtTreeSet OpDigest)
    (map : ExtTreeMap OpDigest (ExtTreeSet OpDigest)) (hash x y : OpDigest) :
    y ∈ (dropSuccessor epochHeads map hash).getD x ∅ ↔
      y ∈ map.getD x ∅ ∧ ¬ (x ∈ epochHeads ∧ y = hash ∧ x ≠ y) := by
  unfold dropSuccessor
  have listed : x ∈ epochHeads ↔ x ∈ epochHeads.toList := ExtTreeSet.mem_toList.symm
  rw [ExtTreeSet.foldl_eq_foldl_toList, listed]
  clear listed
  induction epochHeads.toList generalizing map with
  | nil => simp
  | cons head list ih =>
    rw [List.foldl_cons, List.mem_cons]
    refine (ih _).trans ?_
    split
    · rename_i same
      subst same
      constructor
      · rintro ⟨member, kept⟩
        refine ⟨member, ?_⟩
        rintro ⟨rfl | here, rfl, apart⟩
        · exact apart rfl
        · exact kept ⟨here, rfl, apart⟩
      · rintro ⟨member, kept⟩
        exact ⟨member, fun drop => kept ⟨.inr drop.1, drop.2⟩⟩
    · rename_i other
      rw [mem_getD_removeAt]
      constructor
      · rintro ⟨⟨member, keptHere⟩, kept⟩
        refine ⟨member, ?_⟩
        rintro ⟨rfl | here, rfl, apart⟩
        · exact keptHere ⟨rfl, rfl⟩
        · exact kept ⟨here, rfl, apart⟩
      · rintro ⟨member, kept⟩
        refine ⟨⟨member, ?_⟩, fun drop => kept ⟨.inr drop.1, drop.2⟩⟩
        rintro ⟨rfl, rfl⟩
        exact kept ⟨.inl rfl, rfl, other⟩

theorem mem_getD_foldl_dropSuccessor (epochHeads : ExtTreeSet OpDigest) (list : List OpDigest)
    (map : ExtTreeMap OpDigest (ExtTreeSet OpDigest)) (x y : OpDigest) :
    y ∈ (list.foldl (dropSuccessor epochHeads) map).getD x ∅ ↔
      y ∈ map.getD x ∅ ∧ ¬ (x ∈ epochHeads ∧ y ∈ list ∧ x ≠ y) := by
  induction list generalizing map with
  | nil => simp
  | cons a list ih =>
    rw [List.foldl_cons, ih, mem_getD_dropSuccessor, List.mem_cons]
    tauto

def opsAt (graph : CgkaOperationGraph) (hashes : List OpDigest) : List SignedOp :=
  hashes.filterMap fun hash => graph.cgkaOps[hash]?

variable {graph : CgkaOperationGraph} {hashes : List OpDigest}

theorem opsFor_eq
    (known : ∀ h ∈ hashes, h ∈ graph.cgkaOps) :
    graph.opsFor hashes = .ok (graph.opsAt hashes) := by
  induction hashes with
  | nil => rfl
  | cons h rest ih =>
    obtain ⟨op, found⟩ := mem_iff_exists.mp (known h List.mem_cons_self)
    unfold opsFor opsAt
    rw [List.filterMap_cons, found, ih fun h' member => known h' (List.mem_cons_of_mem _ member)]
    rfl

theorem pushEpoch_opsAt (epochs : List (List OpDigest)) (known : ∀ h ∈ hashes, h ∈ graph.cgkaOps) :
    pushEpoch (epochs.map graph.opsAt) (graph.opsAt hashes)
      = (Layering.push epochs hashes).map graph.opsAt := by
  unfold pushEpoch Layering.push
  cases hashes with
  | nil => rfl
  | cons h rest =>
    obtain ⟨op, found⟩ := mem_iff_exists.mp (known h List.mem_cons_self)
    have some : graph.opsAt (h :: rest) = op :: graph.opsAt rest := by
      unfold opsAt
      rw [List.filterMap_cons, found]
    rw [if_neg (by simp [some]), if_neg (by simp)]
    simp

/-- **The state of the loop over the layers**, when some operations are done. -/
structure Popped (g : Layering.Graph OpDigest) (done : Set OpDigest) (state : Layers) : Prop where
  sort : state.dependencies.Holds g done
  later : ∀ x ∈ g.nodes, x ∉ done → ∀ y,
    y ∈ state.successors.getD x ∅ ↔ y ∈ g.nodes ∧ x ∈ g.before y
  heads : ∀ x, x ∈ state.epochHeads ↔ Layering.Open g done x
  waiting : ∀ x ∈ state.epochHeads, ∀ y, y ∈ state.successors.getD x ∅ ↔
    (y ∈ g.nodes ∧ x ∈ g.before y ∧ y ∉ done) ∨ (y = x ∧ ∀ z ∈ g.nodes, x ∉ g.before z)

section TakeLayer

variable {g : Layering.Graph OpDigest} {done : Set OpDigest} {layer : List OpDigest}
  {successors : ExtTreeMap OpDigest (ExtTreeSet OpDigest)} {epochHeads : ExtTreeSet OpDigest}

/-- The heads of the epoch together with a layer. -/
def headsWith (epochHeads : ExtTreeSet OpDigest) (layer : List OpDigest) : ExtTreeSet OpDigest :=
  layer.foldl (fun heads hash => heads.insert hash) epochHeads

def successorsAfter (successors : ExtTreeMap OpDigest (ExtTreeSet OpDigest))
    (heads : ExtTreeSet OpDigest) (layer : List OpDigest) :
    ExtTreeMap OpDigest (ExtTreeSet OpDigest) :=
  layer.foldl (dropSuccessor heads) (layer.foldl selfSucceed successors)

theorem mem_successorsAfter {heads : ExtTreeSet OpDigest} {x y : OpDigest} :
    y ∈ (successorsAfter successors heads layer).getD x ∅ ↔
      (y ∈ successors.getD x ∅ ∨ (x ∈ layer ∧ y = x ∧ ∀ z, z ∉ successors.getD x ∅)) ∧
        ¬ (x ∈ heads ∧ y ∈ layer ∧ x ≠ y) := by
  unfold successorsAfter
  rw [mem_getD_foldl_dropSuccessor, mem_getD_foldl_selfSucceed]

variable (lower : Layering.Lower g done) (isLayer : Layering.Layer Less g done layer)
  (later : ∀ x ∈ g.nodes, x ∉ done → ∀ y,
    y ∈ successors.getD x ∅ ↔ y ∈ g.nodes ∧ x ∈ g.before y)
  (heads : ∀ x, x ∈ epochHeads ↔ Layering.Open g done x)
  (waiting : ∀ x ∈ epochHeads, ∀ y, y ∈ successors.getD x ∅ ↔
    (y ∈ g.nodes ∧ x ∈ g.before y ∧ y ∉ done) ∨ (y = x ∧ ∀ z ∈ g.nodes, x ∉ g.before z))

include lower isLayer later heads waiting

/-- Operations that are left keep their successors. -/
theorem successorsAfter_later {x : OpDigest} (isNode : x ∈ g.nodes)
    (left : x ∉ Layering.after done layer) (y : OpDigest) :
    y ∈ (successorsAfter successors (headsWith epochHeads layer) layer).getD x ∅ ↔
      y ∈ g.nodes ∧ x ∈ g.before y := by
  have notDone : x ∉ done := fun member => left (.inl member)
  have notLayer : x ∉ layer := fun member => left (.inr member)
  have notHead : x ∉ headsWith epochHeads layer := by
    unfold headsWith
    rw [mem_foldl_insert, heads]
    rintro (isOpen | member)
    · exact notDone isOpen.1
    · exact notLayer member
  rw [mem_successorsAfter, ← later x isNode notDone]
  simp [notLayer, notHead]

theorem successorsAfter_waiting {x : OpDigest} (member : x ∈ headsWith epochHeads layer)
    (y : OpDigest) :
    y ∈ (successorsAfter successors (headsWith epochHeads layer) layer).getD x ∅ ↔
      (y ∈ g.nodes ∧ x ∈ g.before y ∧ y ∉ Layering.after done layer) ∨
        (y = x ∧ ∀ z ∈ g.nodes, x ∉ g.before z) := by
  have isHead := member
  unfold headsWith at member
  rw [mem_foldl_insert] at member
  have afterwards : y ∉ Layering.after done layer ↔ y ∉ done ∧ y ∉ layer := by
    simp [Layering.after, not_or]
  rw [mem_successorsAfter, afterwards]
  by_cases inLayer : x ∈ layer
  · obtain ⟨isNode, notDone, below⟩ := (isLayer.mem_iff x).mp inLayer
    have follows (z : OpDigest) : z ∈ successors.getD x ∅ ↔ z ∈ g.nodes ∧ x ∈ g.before z :=
      later x isNode notDone z
    -- What follows a member of the layer is in no earlier and not in this layer.
    have beyond (z : OpDigest) (before : x ∈ g.before z) : z ∉ layer := fun inLayer' =>
      notDone (((isLayer.mem_iff z).mp inLayer').2.2 before)
    simp only [follows, inLayer, true_and]
    constructor
    · rintro ⟨⟨isNodeY, before⟩ | ⟨rfl, free⟩, -⟩
      · by_cases doneY : y ∈ done
        · exact absurd (lower.2 y doneY before) notDone
        · exact .inl ⟨isNodeY, before, doneY, beyond y before⟩
      · exact .inr ⟨rfl, fun z isNodeZ before => free z ⟨isNodeZ, before⟩⟩
    · rintro (⟨isNodeY, before, -, notLayer⟩ | ⟨rfl, free⟩)
      · exact ⟨.inl ⟨isNodeY, before⟩, fun drop => notLayer drop.2.1⟩
      · exact ⟨.inr ⟨rfl, fun z both => free z both.1 both.2⟩, fun drop => drop.2.2 rfl⟩
  · have old : x ∈ epochHeads := member.resolve_right inLayer
    simp only [waiting x old, inLayer, false_and, or_false, isHead, true_and]
    constructor
    · rintro ⟨⟨isNodeY, before, leftY⟩ | free, kept⟩
      · refine .inl ⟨isNodeY, before, leftY, fun inLayerY => kept ⟨inLayerY, ?_⟩⟩
        rintro rfl
        exact leftY ((heads x).mp old).1
      · exact .inr free
    · rintro (⟨isNodeY, before, leftY, notLayer⟩ | ⟨rfl, free⟩)
      · exact ⟨.inl ⟨isNodeY, before, leftY⟩, fun drop => notLayer drop.1⟩
      · exact ⟨.inr ⟨rfl, free⟩, fun drop => drop.2 rfl⟩

theorem headsAfter (x : OpDigest) :
    x ∈ (headsWith epochHeads layer).filter (fun head =>
        !((successorsAfter successors (headsWith epochHeads layer) layer).getD head ∅).isEmpty) ↔
      Layering.Open g (Layering.after done layer) x := by
  rw [mem_filter_iff, Bool.not_eq_true', isEmpty_eq_false_iff]
  constructor
  · rintro ⟨isHead, y, waits⟩
    have member := isHead
    unfold headsWith at member
    rw [mem_foldl_insert] at member
    refine ⟨member.imp (fun old => ((heads x).mp old).1) id, ?_⟩
    rcases (successorsAfter_waiting lower isLayer later heads waiting isHead y).mp waits with
      ⟨isNode, before, left⟩ | ⟨-, free⟩
    · exact .inr ⟨y, isNode, before, left⟩
    · exact .inl free
  · rintro ⟨member, isOpen⟩
    have isHead : x ∈ headsWith epochHeads layer := by
      unfold headsWith
      rw [mem_foldl_insert, heads]
      refine member.imp (fun old => ⟨old, ?_⟩) id
      exact isOpen.imp id fun ⟨y, isNode, before, left⟩ =>
        ⟨y, isNode, before, fun done => left (.inl done)⟩
    refine ⟨isHead, ?_⟩
    rcases isOpen with free | ⟨y, isNode, before, left⟩
    · exact ⟨x, (successorsAfter_waiting lower isLayer later heads waiting isHead x).mpr
        (.inr ⟨rfl, free⟩)⟩
    · exact ⟨y, (successorsAfter_waiting lower isLayer later heads waiting isHead y).mpr
        (.inl ⟨isNode, before, left⟩)⟩

end TakeLayer

/-- What a layer makes of the operations grouped so far. -/
structure TakenIn (graph : CgkaOperationGraph) (g : Layering.Graph OpDigest) (done : Set OpDigest)
    (layer : List OpDigest) (state state' : Layers) : Prop where
  narrow : Layering.Narrow g (Layering.after done layer) →
    state'.nextEpoch = [] ∧
      state'.epochs = pushEpoch (pushEpoch state.epochs state.nextEpoch) (graph.opsAt layer)
  wide : ¬ Layering.Narrow g (Layering.after done layer) →
    state'.nextEpoch = state.nextEpoch ++ graph.opsAt layer ∧ state'.epochs = state.epochs

variable {g : Layering.Graph OpDigest} {done : Set OpDigest}

theorem takeLayer_ok {graph : CgkaOperationGraph} {layer : List OpDigest} {state : Layers}
    {sort : TopologicalSort OpDigest} (lower : Layering.Lower g done)
    (isLayer : Layering.Layer Less g done layer) (popped : Popped g done state)
    (popSort : sort.Holds g (Layering.after done layer))
    (known : ∀ h ∈ layer, h ∈ graph.cgkaOps) :
    ∃ state', graph.takeLayer { state with dependencies := sort } layer = .ok state' ∧
      Popped g (Layering.after done layer) state' ∧ TakenIn graph g done layer state state' := by
  obtain ⟨-, later, heads, waiting⟩ := popped
  have isHead := headsAfter lower isLayer later heads waiting
  have popped' : ∀ nextEpoch epochs, Popped g (Layering.after done layer)
      ⟨sort, successorsAfter state.successors (headsWith state.epochHeads layer) layer,
        (headsWith state.epochHeads layer).filter (fun head =>
          !((successorsAfter state.successors (headsWith state.epochHeads layer) layer).getD head
            ∅).isEmpty), nextEpoch, epochs⟩ := fun nextEpoch epochs =>
    { sort := popSort
      later := fun x isNode left =>
        successorsAfter_later lower isLayer later heads waiting isNode left
      heads := isHead
      waiting := fun x member =>
        successorsAfter_waiting lower isLayer later heads waiting (mem_filter_iff.mp member).1 }
  have narrow_iff : ((headsWith state.epochHeads layer).filter (fun head =>
      !((successorsAfter state.successors (headsWith state.epochHeads layer) layer).getD head
        ∅).isEmpty)).size ≤ 1 ↔ Layering.Narrow g (Layering.after done layer) := by
    rw [size_le_one_iff]
    unfold Layering.Narrow
    simp only [isHead]
  unfold takeLayer
  rw [opsFor_eq known]
  simp only [bind, Except.bind, pure, Except.pure]
  by_cases narrow : Layering.Narrow g (Layering.after done layer)
  · refine ⟨_, if_pos (narrow_iff.mpr narrow), popped' _ _, fun _ => ⟨rfl, rfl⟩, fun wide => ?_⟩
    exact absurd narrow wide
  · refine ⟨_, if_neg fun small => narrow (narrow_iff.mp small), popped' _ _, fun narrow' => ?_,
      fun _ => ⟨rfl, rfl⟩⟩
    exact absurd narrow' narrow

theorem sortDigests_of_perm {hashes layer : List OpDigest} (perm : hashes.Perm layer)
    (sorted : layer.Pairwise Less) : sortDigests hashes = layer := by
  have ascending : layer.Pairwise fun first second => (compare first second).isLE :=
    sorted.imp fun {a b} (less : compare a b = .lt) => by simp [less]
  have total : Std.Total fun first second : OpDigest => (compare first second).isLE = true := ⟨fun x y => by
    rw [OrientedOrd.eq_swap (a := x) (b := y)]
    cases compare y x <;> simp⟩
  have trans : IsTrans OpDigest fun first second => (compare first second).isLE = true :=
    ⟨fun _ _ _ => TransOrd.isLE_trans⟩
  refine List.Perm.eq_of_pairwise (fun x y _ _ le ge => ?_) (List.pairwise_insertionSort _ _) ascending
    ((List.perm_insertionSort _ _).trans perm)
  exact LawfulEqOrd.eq_of_compare (OrientedCmp.isLE_antisymm le ge)

theorem exists_mem_layer (ranked : Layering.Ranked g)
    (inside : ∀ x ∈ g.nodes, g.before x ⊆ g.nodes) {x : OpDigest}
    (isNode : x ∈ g.nodes) (left : x ∉ done) :
    ∃ y ∈ g.nodes, y ∉ done ∧ g.before y ⊆ done := by
  obtain ⟨rank, -, rises, -⟩ := ranked
  -- Descend from the operation to one whose predecessors are done.
  induction steps : rank x using Nat.strong_induction_on generalizing x with
  | _ steps ih =>
    by_cases below : g.before x ⊆ done
    · exact ⟨x, isNode, left, below⟩
    · obtain ⟨p, before, leftP⟩ := Set.not_subset.mp below
      exact ih (rank p) (steps ▸ rises x isNode p before) (inside x isNode before) leftP rfl

section LayersLoop

variable (order : IterOrder) {graph : CgkaOperationGraph} {g : Layering.Graph OpDigest} (ranked : Layering.Ranked g)
  (inside : ∀ x ∈ g.nodes, g.before x ⊆ g.nodes) (known : ∀ x ∈ g.nodes, x ∈ graph.cgkaOps)

include ranked inside known

/-- **The loop over the layers returns the epochs of the graph.** -/
theorem layersLoop_ok {fuel : Nat} {done : Set OpDigest} {state : Layers} {next : List OpDigest}
    {epochs : List (List OpDigest)} (lower : Layering.Lower g done) (popped : Popped g done state)
    (enough : state.dependencies.deps.size < fuel) (knownNext : ∀ h ∈ next, h ∈ graph.cgkaOps)
    (nextEpoch : state.nextEpoch = graph.opsAt next)
    (stateEpochs : state.epochs = epochs.map graph.opsAt) :
    ∃ layers, Layering.Layered Less g done layers ∧
      graph.layersLoopIn order fuel state
        = .ok ((Layering.group g done next epochs layers).map graph.opsAt) := by
  induction fuel generalizing done state next epochs with
  | zero => omega
  | succ fuel ih =>
    unfold layersLoopIn
    by_cases finished : state.dependencies.isEmpty = true
    · refine ⟨[], .nil fun x isNode => ?_, ?_⟩
      · by_contra left
        exact map_isEmpty_iff.mp finished x ((popped.sort.nodes x).mpr ⟨isNode, left⟩)
      · rw [if_pos finished, nextEpoch, stateEpochs, pushEpoch_opsAt epochs knownNext]
        rfl
    · obtain ⟨x, member⟩ : ∃ x, x ∈ state.dependencies.deps := by
        by_contra none
        exact finished (map_isEmpty_iff.mpr fun x member => none ⟨x, member⟩)
      obtain ⟨isNode, left⟩ := (popped.sort.nodes x).mp member
      obtain ⟨y, isNodeY, leftY, below⟩ := exists_mem_layer ranked inside isNode left
      obtain ⟨layer, layer_eq⟩ : ∃ layer, layer = state.dependencies.ready := ⟨_, rfl⟩
      have isLayer : Layering.Layer Less g done layer := by
        rw [layer_eq]
        exact ⟨state.dependencies.sorted_ready, popped.sort.mem_ready⟩
      have here : y ∈ layer := (isLayer.mem_iff y).mpr ⟨isNodeY, leftY, below⟩
      obtain ⟨nextSet, nextSet_eq⟩ : ∃ nextSet, nextSet = order.list (.ofList layer) := ⟨_, rfl⟩
      have mem_nextSet (z : OpDigest) : z ∈ nextSet ↔ z ∈ layer := by
        rw [nextSet_eq, order.mem_list, mem_ofList_iff]
      have distinct : nextSet.Nodup := nextSet_eq ▸ order.nodup_list
      have popSort := popped.sort.popList distinct fun z memberZ =>
        ⟨((isLayer.mem_iff z).mp ((mem_nextSet z).mp memberZ)).1,
          ((isLayer.mem_iff z).mp ((mem_nextSet z).mp memberZ)).2.1⟩
      have same : Layering.after done nextSet = Layering.after done layer :=
        Set.ext fun z => or_congr_right (mem_nextSet z)
      rw [same] at popSort
      have knownLayer (h : OpDigest) (memberH : h ∈ layer) : h ∈ graph.cgkaOps :=
        known h ((isLayer.mem_iff h).mp memberH).1
      obtain ⟨state', takes, popped', taken⟩ := takeLayer_ok lower isLayer popped popSort knownLayer
      have shrinks : state'.dependencies.deps.size < fuel := by
        have distinct : (y :: state'.dependencies.deps.keys).Nodup := by
          refine List.nodup_cons.mpr ⟨fun again => ?_, nodup_keys _⟩
          exact ((popped'.sort.nodes y).mp (ExtTreeMap.mem_keys.mp again)).2 (.inr here)
        have within (z : OpDigest) (memberZ : z ∈ y :: state'.dependencies.deps.keys) :
            z ∈ state.dependencies.deps := by
          rw [popped.sort.nodes]
          rcases List.mem_cons.mp memberZ with rfl | memberZ
          · exact ⟨isNodeY, leftY⟩
          · have := (popped'.sort.nodes z).mp (ExtTreeMap.mem_keys.mp memberZ)
            exact ⟨this.1, fun done => this.2 (.inl done)⟩
        have bound := length_le_size distinct within
        rw [List.length_cons, ExtTreeMap.length_keys] at bound
        omega
      have resorted : sortDigests nextSet = layer := sortDigests_of_perm
        ((List.perm_ext_iff_of_nodup distinct isLayer.nodup).mpr mem_nextSet) isLayer.sorted
      have step : graph.layersLoopIn order (fuel + 1) state = graph.layersLoopIn order fuel state' := by
        rw [layersLoopIn, if_neg finished]
        simp only [← layer_eq, ← nextSet_eq, resorted, takes, bind, Except.bind]
      have goesOn (next' : List OpDigest) (epochs' : List (List OpDigest))
          (knownNext' : ∀ h ∈ next', h ∈ graph.cgkaOps)
          (nextEpoch' : state'.nextEpoch = graph.opsAt next')
          (stateEpochs' : state'.epochs = epochs'.map graph.opsAt)
          (grouped : ∀ rest, Layering.group g done next epochs (layer :: rest)
            = Layering.group g (Layering.after done layer) next' epochs' rest) :
          ∃ layers, Layering.Layered Less g done layers ∧ graph.layersLoopIn order (fuel + 1) state
            = .ok ((Layering.group g done next epochs layers).map graph.opsAt) := by
        obtain ⟨rest, layered, runs⟩ :=
          ih (lower.after isLayer) popped' shrinks knownNext' nextEpoch' stateEpochs'
        refine ⟨layer :: rest, .cons isLayer (List.ne_nil_of_mem here) layered, ?_⟩
        rw [step, runs, grouped]
      rw [layersLoopIn] at goesOn
      by_cases narrow : Layering.Narrow g (Layering.after done layer)
      · refine goesOn [] (Layering.push (Layering.push epochs next) layer) (by simp)
          (taken.narrow narrow).1 ?_ fun rest => by rw [Layering.group, if_pos narrow]
        rw [(taken.narrow narrow).2, nextEpoch, stateEpochs, pushEpoch_opsAt epochs knownNext,
          pushEpoch_opsAt _ knownLayer]
      · refine goesOn (next ++ layer) epochs (fun h memberH => ?_) ?_
          ((taken.wide narrow).2.trans stateEpochs) fun rest => by rw [Layering.group, if_neg narrow]
        · exact (List.mem_append.mp memberH).elim (knownNext h) (knownLayer h)
        · rw [(taken.wide narrow).1, nextEpoch]
          exact (List.filterMap_append ..).symm

end LayersLoop

/-! ### The epochs -/

section Epochs

variable {hash : SignedOp → OpDigest} {graph : CgkaOperationGraph} {heads : ExtTreeSet OpDigest}

/-- An operation has an edge: it follows something, or something follows it. -/
def Linked (graph : CgkaOperationGraph) (heads : ExtTreeSet OpDigest) (x : OpDigest) : Prop :=
  ∃ y, (History graph heads y ∧ x ∈ graph.before y) ∨ (History graph heads x ∧ y ∈ graph.before x)

/-- The ancestors that have an edge. -/
def linked (graph : CgkaOperationGraph) (heads : ExtTreeSet OpDigest) : Layering.Graph OpDigest :=
  ⟨{x | Linked graph heads x}, graph.before⟩

variable {x : OpDigest}

theorem Linked.history (isLinked : Linked graph heads x) : History graph heads x := by
  obtain ⟨y, ⟨follows, edge⟩ | ⟨here, -⟩⟩ := isLinked
  · exact .before follows edge
  · exact here

variable {head : OpDigest}

/-- **The topological sort, in any order**: the heads if nothing has an edge, and else the epochs of what has. -/
theorem Sound.topsortForHeadsIn_eq (sound : Sound hash graph) (known : ∀ h ∈ heads, h ∈ graph.cgkaOps)
    (order : IterOrder) (member : head ∈ heads) :
    ((∀ x, ¬ Linked graph heads x) → graph.topsortForHeadsIn order heads = .ok [graph.opsAt (order.list heads)]) ∧
      ((∃ x, Linked graph heads x) → ∃ epochs, Layering.Epochs Less (graph.linked heads) epochs ∧
        graph.topsortForHeadsIn order heads = .ok (epochs.map graph.opsAt)) := by
  have enough : graph.cgkaOpsPredecessors.size
      < graph.cgkaOpsPredecessors.size + 1 + ([] : List OpDigest).length := by simp
  obtain ⟨state, collects, recorded⟩ :=
    sound.collectLoop_ok known order (walk_collectInit order graph heads) enough
  have mem_deps (x : OpDigest) : x ∈ state.dependencies.deps ↔ Linked graph heads x := recorded.nodes x
  unfold topsortForHeadsIn
  rw [collects]
  simp only [bind, Except.bind]
  refine ⟨fun none => ?_, fun ⟨x, isLinked⟩ => ?_⟩
  · have finished : state.dependencies.isEmpty = true :=
      map_isEmpty_iff.mpr fun x memberX => none x ((mem_deps x).mp memberX)
    have listed := opsFor_eq fun h inside => known h (order.mem_list.mp inside)
    obtain ⟨op, present⟩ := mem_iff_exists.mp (known head member)
    have some : graph.opsAt (order.list heads) ≠ [] :=
      List.ne_nil_of_mem (List.mem_filterMap.mpr ⟨head, order.mem_list.mpr member, present⟩)
    rw [if_pos finished, listed]
    cases ops : graph.opsAt (order.list heads) with
    | nil => exact absurd ops some
    | cons op rest => rfl
  · have unfinished : ¬ state.dependencies.isEmpty = true := fun finished =>
      map_isEmpty_iff.mp finished x ((mem_deps x).mpr isLinked)
    rw [if_neg unfinished]
    have popped : Popped (graph.linked heads) ∅ ⟨state.dependencies, state.successors, ∅, [], []⟩ := by
      have follower {y z : OpDigest} (both : History graph heads z ∧ y ∈ graph.before z) :
          z ∈ (graph.linked heads).nodes := ⟨y, .inr both⟩
      refine ⟨⟨fun y => ?_, fun y isNode _ z => ?_, fun y _ _ z => ?_⟩, fun y _ _ z => ?_, fun y => ?_,
        fun y memberY => ?_⟩
      · exact (mem_deps y).trans ⟨fun isLinked => ⟨isLinked, id⟩, fun both => both.1⟩
      · rw [recorded.deps]
        exact ⟨fun both => ⟨both.2, id⟩, fun both => ⟨isNode.history, both.1⟩⟩
      · rw [recorded.rdeps]
        exact ⟨fun both => ⟨follower both, both.2⟩, fun both => ⟨both.1.history, both.2⟩⟩
      · rw [recorded.successors]
        exact ⟨fun both => ⟨follower both, both.2⟩, fun both => ⟨both.1.history, both.2⟩⟩
      · refine ⟨fun memberY => ?_, fun isOpen => isOpen.1.elim⟩
        simp at memberY
      · simp at memberY
    have ranked : Layering.Ranked (graph.linked heads) :=
      sound.rankedOn fun y isNode => sound.known_of_history known isNode.history
    obtain ⟨layers, layered, runs⟩ : ∃ layers, Layering.Layered Less (graph.linked heads) ∅ layers ∧
        graph.layersLoopIn order (state.dependencies.deps.size + 1)
            ⟨state.dependencies, state.successors, ∅, [], []⟩
          = .ok ((Layering.group (graph.linked heads) ∅ [] [] layers).map graph.opsAt) :=
      layersLoop_ok order ranked (fun y isNode z before => ⟨y, .inl ⟨isNode.history, before⟩⟩)
        (fun y isNode => sound.known_of_history known isNode.history) (Layering.lower_empty _) popped
        (Nat.lt_succ_self _) (by simp) rfl rfl
    refine ⟨_, ⟨layers, layered, rfl⟩, ?_⟩
    rw [runs]
    have nonempty : Layering.group (graph.linked heads) ∅ [] [] layers ≠ [] := by
      intro empty
      have flat := Layering.flatten_group (graph.linked heads) ∅ [] [] layers
      rw [empty] at flat
      rcases layered.mem_flatten x isLinked with done | listed
      · exact done
      · have flat : layers.flatten = [] := by simpa using flat.symm
        rw [flat] at listed
        exact absurd listed List.not_mem_nil
    simp [nonempty, pure, Except.pure]

variable (causal : Causal hash graph) (known : ∀ h ∈ heads, h ∈ graph.cgkaOps)

include causal known

/-- If there is an edge at all, every operation has one. -/
theorem Causal.linked_of_history {a b : OpDigest} (follows : History graph heads b)
    (edge : a ∈ graph.before b) (isHistory : History graph heads x) : Linked graph heads x := by
  have sound := causal.sound
  obtain ⟨root, isRoot⟩ := causal.root
  obtain ⟨rank, rises⟩ := causal.ranked
  have above (z : OpDigest) (isHistoryZ : History graph heads z) (apart : z ≠ root) :
      ∃ p, p ∈ graph.before z := by
    obtain ⟨op, present⟩ := mem_iff_exists.mp (sound.known_of_history known isHistoryZ)
    by_contra none
    refine apart ((isRoot z op present).mp fun p member => none ⟨p, ?_⟩)
    exact sound.mem_before.mpr ⟨op, present, member⟩
  by_cases here : x = root
  · subst here
    -- Descend along predecessors until the root is reached.
    induction steps : rank b using Nat.strong_induction_on generalizing a b with
    | _ steps ih =>
      by_cases reached : a = x
      · exact ⟨b, .inl ⟨follows, reached ▸ edge⟩⟩
      · have isHistoryA : History graph heads a := .before follows edge
        obtain ⟨p, edge'⟩ := above a isHistoryA reached
        obtain ⟨op, present, member⟩ := sound.mem_before.mp edge
        exact ih (rank a) (steps ▸ rises b op present a member) isHistoryA edge' rfl
  · obtain ⟨p, edge'⟩ := above x isHistory here
    exact ⟨p, .inr ⟨isHistory, edge'⟩⟩

theorem Causal.epochs_of_no_edge (member : head ∈ heads)
    (none : ∀ y, History graph heads y → ∀ x, x ∉ graph.before y) :
    (∀ x, x ∈ heads ↔ x = head) ∧ Layering.Epochs Less (graph.history heads) [[head]] := by
  have sound := causal.sound
  obtain ⟨root, isRoot⟩ := causal.root
  have only (x : OpDigest) (isHistory : History graph heads x) : x = root := by
    obtain ⟨op, present⟩ := mem_iff_exists.mp (sound.known_of_history known isHistory)
    exact (isRoot x op present).mp fun p before =>
      none x isHistory p (sound.mem_before.mpr ⟨op, present, before⟩)
  have single (x : OpDigest) : History graph heads x ↔ x = head := by
    constructor
    · intro isHistory
      rw [only x isHistory, only head (.head member)]
    · rintro rfl
      exact .head member
  constructor
  · exact fun x => ⟨fun isHead => (single x).mp (.head isHead), fun same => same ▸ member⟩
  · refine ⟨[[head]], .cons ⟨List.pairwise_singleton _ _, fun x => ?_⟩ (by simp) (.nil ?_), ?_⟩
    · rw [List.mem_singleton, ← single x]
      exact ⟨fun isHistory => ⟨isHistory, id, fun p before => absurd before (none x isHistory p)⟩,
        fun all => all.1⟩
    · intro x isHistory
      exact .inr (List.mem_singleton.mpr ((single x).mp isHistory))
    · have narrow : Layering.Narrow (graph.history heads) (Layering.after ∅ [head]) := by
        rintro x y ⟨memberX, -⟩ ⟨memberY, -⟩
        have is (z : OpDigest) (memberZ : z ∈ Layering.after ∅ [head]) : z = head :=
          memberZ.elim False.elim List.mem_singleton.mp
        rw [is x memberX, is y memberY]
      simp only [Layering.group, if_pos narrow]
      rfl

/-- **On a causal graph the topological sort returns the epochs of the ancestors**, in any order. -/
theorem Causal.topsortForHeadsIn_epochs (order : IterOrder) (member : head ∈ heads) :
    ∃ epochs, Layering.Epochs Less (graph.history heads) epochs ∧
      graph.topsortForHeadsIn order heads = .ok (epochs.map graph.opsAt) := by
  obtain ⟨listsHeads, listsLinked⟩ := causal.sound.topsortForHeadsIn_eq known order member
  by_cases edges : ∃ y x, History graph heads y ∧ x ∈ graph.before y
  · obtain ⟨y, x, follows, edge⟩ := edges
    have same : graph.linked heads = graph.history heads := by
      refine congrArg (Layering.Graph.mk · graph.before) (Set.ext fun z => ?_)
      exact ⟨Linked.history, causal.linked_of_history known follows edge⟩
    rw [← same]
    exact listsLinked ⟨x, y, .inl ⟨follows, edge⟩⟩
  · have none (y : OpDigest) (isHistory : History graph heads y) (x : OpDigest) : x ∉ graph.before y :=
      fun before => edges ⟨y, x, isHistory, before⟩
    obtain ⟨single, epochs⟩ := causal.epochs_of_no_edge known member none
    refine ⟨[[head]], epochs, ?_⟩
    have listed : order.list heads = [head] := by
      refine List.perm_singleton.mp ((List.perm_ext_iff_of_nodup order.nodup_list (by simp)).mpr fun x => ?_)
      rw [order.mem_list, List.mem_singleton, single]
    rw [listsHeads, listed]
    · rfl
    · rintro x ⟨y, ⟨isHistory, before⟩ | ⟨isHistory, before⟩⟩
      · exact none y isHistory x before
      · exact none x isHistory y before

theorem Causal.topsortForHeads_epochs (member : head ∈ heads) :
    ∃ epochs, Layering.Epochs Less (graph.history heads) epochs ∧
      graph.topsortForHeads heads = .ok (epochs.map graph.opsAt) := by
  rw [← topsortForHeadsIn_sorted]
  exact causal.topsortForHeadsIn_epochs known .sorted member

/-- **The order in which sets are walked does not matter.** -/
theorem Causal.topsortForHeadsIn_order (order : IterOrder) (member : head ∈ heads) :
    graph.topsortForHeadsIn order heads = graph.topsortForHeads heads := by
  obtain ⟨epochs, isEpochs, sorts⟩ := causal.topsortForHeadsIn_epochs known order member
  obtain ⟨epochs', isEpochs', sorts'⟩ := causal.topsortForHeads_epochs known member
  rw [sorts, sorts', isEpochs.unique isEpochs']

end Epochs

/-! ### The operations of the epochs -/

section Decomposed

variable {hash : SignedOp → OpDigest} {graph : CgkaOperationGraph}

/-- The operations under digests that the graph knows, one for each. -/
theorem Sound.map_opsAt (sound : Sound hash graph) {hashes : List OpDigest}
    (known : ∀ h ∈ hashes, h ∈ graph.cgkaOps) : (graph.opsAt hashes).map hash = hashes := by
  induction hashes with
  | nil => rfl
  | cons h rest ih =>
    obtain ⟨op, found⟩ := mem_iff_exists.mp (known h List.mem_cons_self)
    have later := ih fun other member => known other (List.mem_cons_of_mem _ member)
    unfold opsAt at later ⊢
    rw [List.filterMap_cons_some found, List.map_cons, later, sound.keyed h op found]

theorem Sound.mem_opsAt (sound : Sound hash graph) {hashes : List OpDigest} {op : SignedOp} :
    op ∈ graph.opsAt hashes ↔ graph.cgkaOps[hash op]? = some op ∧ hash op ∈ hashes := by
  constructor
  · intro member
    obtain ⟨h, inside, found⟩ := List.mem_filterMap.mp member
    rw [sound.keyed h op found]
    exact ⟨found, inside⟩
  · rintro ⟨found, inside⟩
    exact List.mem_filterMap.mpr ⟨_, inside, found⟩

theorem flatten_map_opsAt (epochs : List (List OpDigest)) :
    (epochs.map graph.opsAt).flatten = graph.opsAt epochs.flatten := by
  induction epochs with
  | nil => rfl
  | cons epoch rest ih =>
    rw [List.map_cons, List.flatten_cons, ih, List.flatten_cons]
    exact List.filterMap_append.symm

/-- One operation is a causal ancestor of another. -/
def Ancestor (graph : CgkaOperationGraph) : OpDigest → OpDigest → Prop :=
  Relation.TransGen fun x y => x ∈ graph.before y

/-- **Epochs of operations**: each of them once and after all its predecessors, and everything in an epoch is an ancestor
of everything in a later one. -/
structure Decomposed (hash : SignedOp → OpDigest) (graph : CgkaOperationGraph) (nodes : Set OpDigest)
    (epochs : List CgkaEpoch) : Prop where
  distinct : (epochs.flatten.map hash).Nodup
  mem_iff : ∀ op, op ∈ epochs.flatten ↔ graph.cgkaOps[hash op]? = some op ∧ hash op ∈ nodes
  earlier : ∀ first op last, epochs.flatten = first ++ op :: last →
    ∀ p ∈ op.payload.predecessors, p ∈ first.map hash
  ancestors : epochs.Pairwise fun first second => ∀ a ∈ first, ∀ b ∈ second, graph.Ancestor (hash a) (hash b)

theorem Sound.decomposed (sound : Sound hash graph) {nodes : Set OpDigest} (known : ∀ h ∈ nodes, h ∈ graph.cgkaOps)
    (inside : ∀ h ∈ nodes, graph.before h ⊆ nodes) {epochs : List (List OpDigest)}
    (isEpochs : Layering.Epochs Less ⟨nodes, graph.before⟩ epochs) :
    Decomposed hash graph nodes (epochs.map graph.opsAt) := by
  have order := isEpochs.order
  have member_iff (h : OpDigest) : h ∈ epochs.flatten ↔ h ∈ nodes := isEpochs.mem_flatten h
  have hashes : (epochs.map graph.opsAt).flatten.map hash = epochs.flatten := by
    rw [flatten_map_opsAt, sound.map_opsAt fun h listed => known h ((member_iff h).mp listed)]
  have mem_iff (op : SignedOp) : op ∈ (epochs.map graph.opsAt).flatten ↔
      graph.cgkaOps[hash op]? = some op ∧ hash op ∈ nodes := by
    rw [flatten_map_opsAt, sound.mem_opsAt, member_iff]
  refine ⟨hashes ▸ order.nodup, mem_iff, fun first op last split p precedes => ?_, List.pairwise_map.mpr ?_⟩
  · have found := ((mem_iff op).mp (split ▸ by simp)).1
    have splitHashes : epochs.flatten = first.map hash ++ hash op :: last.map hash := by
      rw [← hashes, split, List.map_append, List.map_cons]
    exact (order.earlier _ _ _ splitHashes p (sound.mem_before.mpr ⟨op, found, precedes⟩)).resolve_left id
  · refine (isEpochs.ancestors (sound.rankedOn known) inside).imp fun {first second} earlier a inFirst b inSecond => ?_
    exact earlier _ (sound.mem_opsAt.mp inFirst).2 _ (sound.mem_opsAt.mp inSecond).2

end Decomposed

end CgkaOperationGraph

end KeyhiveEval.Beekem
