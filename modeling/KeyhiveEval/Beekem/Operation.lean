/-
**`operation.rs`: the operations and their causal graph.**

* `CgkaOperationGraph` holds the operations under their digests, the predecessors of each, and the
  operations and the adds that nothing follows yet.
* `topsortForHeads` collects the ancestors of some heads, pops them layer by layer and groups the
  layers into epochs: an epoch ends where a single branch is left.

The digest of a signed operation is the parameter `hash`.
-/

import KeyhiveEval.Beekem.Tree
import KeyhiveEval.Beekem.TopSort

namespace KeyhiveEval.Beekem

open Std

inductive VerifyingKeyTag

inductive SignedOpTag

abbrev OpDigest := Digest SignedOpTag

inductive CgkaOperation
  | add (addedId : MemberId) (pk : ShareKey) (leafIndex : Nat) (predecessors : List OpDigest)
      (addPredecessors : List OpDigest) (docId : TreeId)
  | remove (id : MemberId) (leafIdx : Nat) (removedKeys : List ShareKey)
      (predecessors : List OpDigest) (docId : TreeId)
  | update (id : MemberId) (newPath : PathChange) (predecessors : List OpDigest) (docId : TreeId)
deriving DecidableEq

namespace CgkaOperation

def initAdd (docId : TreeId) (addedId : MemberId) (pk : ShareKey) : CgkaOperation :=
  .add addedId pk 0 [] [] docId

/-- The immediate causal predecessors, as they are listed. -/
def predecessorList : CgkaOperation → List OpDigest
  | .add _ _ _ predecessors _ _ => predecessors
  | .remove _ _ _ predecessors _ => predecessors
  | .update _ _ predecessors _ => predecessors

/-- The immediate causal predecessors. -/
def predecessors (op : CgkaOperation) : ExtTreeSet OpDigest :=
  .ofList op.predecessorList

def isAdd : CgkaOperation → Bool
  | .add .. => true
  | _ => false

def isUpdate : CgkaOperation → Bool
  | .update .. => true
  | _ => false

end CgkaOperation

structure SignedOp where
  payload : CgkaOperation
  issuer : Bytes32 VerifyingKeyTag
  signature : BitVec 512
deriving DecidableEq

/-- An ordered, non-empty list of concurrent operations. -/
abbrev CgkaEpoch := List SignedOp

structure CgkaOperationGraph where
  cgkaOps : ExtTreeMap OpDigest SignedOp
  cgkaOpsPredecessors : ExtTreeMap OpDigest (ExtTreeSet OpDigest)
  cgkaOpHeads : ExtTreeSet OpDigest
  addHeads : ExtTreeSet OpDigest
deriving DecidableEq

namespace CgkaOperationGraph

def new : CgkaOperationGraph := ⟨∅, ∅, ∅, ∅⟩

def containsOpHash (graph : CgkaOperationGraph) (opHash : OpDigest) : Bool :=
  graph.cgkaOps.contains opHash

def containsPredecessors (graph : CgkaOperationGraph) (preds : ExtTreeSet OpDigest) : Bool :=
  preds.toList.all fun hash => graph.cgkaOps.contains hash

def hasSingleHead (graph : CgkaOperationGraph) : Bool := graph.cgkaOpHeads.size == 1

def headsContainedIn (graph : CgkaOperationGraph) (heads : ExtTreeSet OpDigest) : Bool :=
  graph.cgkaOpHeads.toList.all fun head => heads.contains head

def eraseAll (set : ExtTreeSet OpDigest) (hashes : List OpDigest) : ExtTreeSet OpDigest :=
  hashes.foldl (fun set hash => set.erase hash) set

section Hash

variable (hash : SignedOp → OpDigest)

/-- Add an operation that was created here: it follows all the heads. -/
def addLocalOp (graph : CgkaOperationGraph) (op : SignedOp) : CgkaOperationGraph :=
  { cgkaOps := graph.cgkaOps.insert (hash op) op
    cgkaOpsPredecessors := graph.cgkaOpsPredecessors.insert (hash op) graph.cgkaOpHeads
    cgkaOpHeads := (∅ : ExtTreeSet OpDigest).insert (hash op)
    addHeads :=
      if op.payload.isAdd then (∅ : ExtTreeSet OpDigest).insert (hash op) else graph.addHeads }

/-- Add an operation that follows the given heads. -/
def addOp (graph : CgkaOperationGraph) (op : SignedOp) (heads : ExtTreeSet OpDigest) :
    CgkaOperationGraph :=
  { cgkaOps := graph.cgkaOps.insert (hash op) op
    cgkaOpsPredecessors := graph.cgkaOpsPredecessors.insert (hash op) heads
    cgkaOpHeads := (eraseAll graph.cgkaOpHeads heads.toList).insert (hash op)
    addHeads :=
      match op.payload with
      | .add _ _ _ _ addPredecessors _ =>
        (eraseAll graph.addHeads addPredecessors).insert (hash op)
      | _ => graph.addHeads }

end Hash

/-- Merge a fork of the graph: keep the entries that are here and unite the heads. -/
def merge (graph fork : CgkaOperationGraph) : CgkaOperationGraph :=
  { cgkaOps := fork.cgkaOps.foldl (fun all hash op => all.insertIfNew hash op) graph.cgkaOps
    cgkaOpsPredecessors := fork.cgkaOpsPredecessors.foldl (fun all hash preds => all.insert hash preds)
      graph.cgkaOpsPredecessors
    cgkaOpHeads := fork.cgkaOpHeads.foldl (fun all hash => all.insert hash) graph.cgkaOpHeads
    addHeads := fork.addHeads.foldl (fun all hash => all.insert hash) graph.addHeads }

/-! ### Collecting the ancestors -/

/-- The state of the walk from the heads to their ancestors. -/
structure Collect where
  dependencies : TopologicalSort OpDigest
  successors : ExtTreeMap OpDigest (ExtTreeSet OpDigest)
  frontier : List OpDigest
  seen : ExtTreeSet OpDigest

/-- Record that `opHash` follows `pred`. -/
def collectPred (opHash : OpDigest) (state : Collect) (pred : OpDigest) : Collect :=
  let state :=
    { state with
      dependencies := state.dependencies.addDependency pred opHash
      successors := insertAt state.successors pred opHash }
  if state.seen.contains pred then state
  else { state with seen := state.seen.insert pred, frontier := state.frontier ++ [pred] }

/-- The loop over the frontier. Every operation enters it once. -/
def collectLoop (graph : CgkaOperationGraph) : Nat → Collect → Res Collect
  | 0, _ => .error .diverge
  | fuel + 1, state =>
    match state.frontier with
    | [] => return state
    | opHash :: frontier =>
      match graph.cgkaOpsPredecessors[opHash]? with
      | none => .error (.err .operationNotFound)
      | some preds =>
        collectLoop graph fuel (preds.foldl (collectPred opHash) { state with frontier })

def collectInit (heads : ExtTreeSet OpDigest) : Collect :=
  { dependencies := .new
    successors := heads.foldl (fun successors head => successors.insert head ∅) ∅
    frontier := heads.toList
    seen := heads }

/-! ### Grouping the layers into epochs -/

/-- The state of the loop that pops the layers. -/
structure Layers where
  dependencies : TopologicalSort OpDigest
  successors : ExtTreeMap OpDigest (ExtTreeSet OpDigest)
  epochHeads : ExtTreeSet OpDigest
  nextEpoch : List SignedOp
  epochs : List CgkaEpoch

def sortDigests (hashes : List OpDigest) : List OpDigest :=
  hashes.insertionSort fun first second => (compare first second).isLE

/-- An operation that nothing follows counts as its own successor. -/
def selfSucceed (successors : ExtTreeMap OpDigest (ExtTreeSet OpDigest)) (hash : OpDigest) :
    ExtTreeMap OpDigest (ExtTreeSet OpDigest) :=
  if (successors.getD hash ∅).isEmpty then insertAt successors hash hash else successors

/-- Take a popped operation out of the successors of all the other heads. -/
def dropSuccessor (epochHeads : ExtTreeSet OpDigest)
    (successors : ExtTreeMap OpDigest (ExtTreeSet OpDigest)) (hash : OpDigest) :
    ExtTreeMap OpDigest (ExtTreeSet OpDigest) :=
  epochHeads.foldl (fun successors head =>
    if head = hash then successors else removeAt successors head hash) successors

def pushEpoch (epochs : List CgkaEpoch) (epoch : List SignedOp) : List CgkaEpoch :=
  if epoch.isEmpty then epochs else epochs ++ [epoch]

def opsFor (graph : CgkaOperationGraph) : List OpDigest → Res (List SignedOp)
  | [] => return []
  | hash :: rest =>
    match graph.cgkaOps[hash]? with
    | none => .error (.err .operationNotFound)
    | some op => do
      let ops ← graph.opsFor rest
      return op :: ops

def takeLayer (graph : CgkaOperationGraph) (state : Layers) (nextSet : List OpDigest) :
    Res Layers := do
  let epochHeads := nextSet.foldl (fun heads hash => heads.insert hash) state.epochHeads
  let successors := nextSet.foldl selfSucceed state.successors
  let successors := nextSet.foldl (dropSuccessor epochHeads) successors
  let epochHeads := epochHeads.filter fun head => !(successors.getD head ∅).isEmpty
  let ops ← graph.opsFor nextSet
  if epochHeads.size ≤ 1 then
    return { state with
      successors, epochHeads
      nextEpoch := []
      epochs := pushEpoch (pushEpoch state.epochs state.nextEpoch) ops }
  else return { state with successors, epochHeads, nextEpoch := state.nextEpoch ++ ops }

/-- The loop over the layers. It never ends if the operations left depend on each other in a
circle. -/
def layersLoop (graph : CgkaOperationGraph) : Nat → Layers → Res (List CgkaEpoch)
  | 0, _ => .error .diverge
  | fuel + 1, state =>
    if state.dependencies.isEmpty then return pushEpoch state.epochs state.nextEpoch
    else do
      let (nextSet, dependencies) := state.dependencies.popAll
      let state ← graph.takeLayer { state with dependencies } (sortDigests nextSet)
      layersLoop graph fuel state

/-- Sort the ancestors of the given heads into epochs. -/
def topsortForHeads (graph : CgkaOperationGraph) (heads : ExtTreeSet OpDigest) :
    Res (List CgkaEpoch) := do
  let state ← graph.collectLoop (graph.cgkaOpsPredecessors.size + 1) (collectInit heads)
  if state.dependencies.isEmpty then
    match graph.opsFor heads.toList with
    | .error _ => .error (.panic "head to be present")
    | .ok [] => .error (.panic "to have at least one op hash")
    | .ok ops => return [ops]
  else
    let epochs ← graph.layersLoop (state.dependencies.deps.size + 1)
      { dependencies := state.dependencies
        successors := state.successors
        epochHeads := ∅
        nextEpoch := []
        epochs := [] }
    if epochs.isEmpty then .error (.panic "to have at least one op hash") else return epochs

/-- Sort all operations of the graph into epochs. -/
def topsortGraph (graph : CgkaOperationGraph) : Res (List CgkaEpoch) :=
  graph.topsortForHeads graph.cgkaOpHeads

end CgkaOperationGraph

end KeyhiveEval.Beekem
