/-
**`membership_operation.rs`: the order in which membership operations take effect.**

`reverseTopsort` walks from the heads of a group to everything they refer to and sorts what it finds,
dependents first.

* Besides the references there is an edge from every delegation to a revocation of its proof. The map
  that these edges are taken from holds one revocation for each revoked delegation: the one that
  the walk met last.
* A frontier with several revocations gives out the first of them and puts the others back, one
  after another.

The nodes of the sort are the digests; the source pairs each digest with its operation.
-/

import KeyhiveEval.Core.GroupState
import KeyhiveEval.Beekem.TopSort

namespace KeyhiveEval.Core

open Std Beekem

/-- `Topsort`, which is the sort of the other crate with isolated nodes. -/
abbrev Topsort := TopologicalSort MembershipDigest

namespace Topsort

/-- Ensure that a node is tracked even if it has no edges. -/
def addNode (sort : Topsort) (node : MembershipDigest) : Topsort :=
  { deps := orDefault sort.deps node
    rdeps := orDefault sort.rdeps node }

/-- Remove and return the nodes whose predecessors have all been popped, in their order. -/
def popFrontier (sort : Topsort) : List MembershipDigest × Topsort := TopologicalSort.popAll sort

end Topsort

/-! ### Collecting the operations -/

/-- The operations that were met, each with the digests of what it refers to. -/
abbrev AllOps (T : Type) := ExtTreeMap MembershipDigest (MembershipOperation T × List MembershipDigest)

/-- What the walk from the heads has collected. -/
structure Explored (T : Type) where
  allOps : AllOps T
  /-- Revoked delegation signature to revocation digest. -/
  revokedDependencies : ExtTreeMap Signature MembershipDigest

namespace Explored

variable {T : Type} (hash : MembershipOperation T → MembershipDigest)

def empty : Explored T := ⟨∅, ∅⟩

/-- Take in an operation that was not met before. -/
def visit (explored : Explored T) (op : MembershipOperation T) : Explored T :=
  { allOps := explored.allOps.insert (hash op) (op, op.afterAuth.map hash)
    revokedDependencies :=
      match op with
      | .revocation rev =>
        explored.revokedDependencies.insert rev.payload.revoke.signature (hash op)
      | .delegation _ => explored.revokedDependencies }

/-- The walk, with the stack of the operations to explore. The fuel is their weight. -/
def explore : Nat → List (MembershipOperation T) → Explored T → Explored T
  | 0, _, explored => explored
  | _, [], explored => explored
  | fuel + 1, op :: stack, explored =>
    if explored.allOps.contains (hash op) then explore fuel stack explored
    else explore fuel (op.afterAuth.reverse ++ stack) (explored.visit hash op)

end Explored

/-- The heads in the order in which they are popped off the stack. -/
def headStack {T : Type} (order : HashOrder T) (delegationHeads : DelegationStore T)
    (revocationHeads : RevocationStore T) : List (MembershipOperation T) :=
  ((order.delegations delegationHeads.toList).map (fun entry => MembershipOperation.delegation entry.2) ++
    (order.revocations revocationHeads.toList).map fun entry =>
      MembershipOperation.revocation entry.2).reverse

def exploreHeads {T : Type} (hash : MembershipOperation T → MembershipDigest) (order : HashOrder T)
    (delegationHeads : DelegationStore T) (revocationHeads : RevocationStore T) : Explored T :=
  let stack := headStack order delegationHeads revocationHeads
  Explored.empty.explore hash (stack.map MembershipOperation.weight).sum stack

/-! ### Distances and edges -/

/-- One more than the largest distance among the operations that this one refers to. -/
def computeDistance {T : Type} (allOps : AllOps T) : Nat → MembershipDigest → Nat
  | 0, _ => 1
  | fuel + 1, digest =>
    match allOps[digest]? with
    | none => 1
    | some (_, parents) =>
      ((parents.filter fun parent => allOps.contains parent).map (computeDistance allOps fuel)).foldr
        max 0 + 1

def distanceToRoot {T : Type} (allOps : AllOps T) (digest : MembershipDigest) : Nat :=
  computeDistance allOps (allOps.size + 1) digest

/-- The sort and, for each node, the nodes that it is to be popped before. -/
structure Adjacencies where
  sort : Topsort
  successorsOf : ExtTreeMap MembershipDigest (List MembershipDigest)

namespace Adjacencies

def empty : Adjacencies := ⟨.new, ∅⟩

def addEdge (adj : Adjacencies) (before after : MembershipDigest) : Adjacencies :=
  { sort := adj.sort.addDependency before after
    successorsOf := adj.successorsOf.insert before (adj.successorsOf.getD before [] ++ [after]) }

end Adjacencies

namespace Explored

variable {T : Type}

/-- The revocation of its proof that a delegation is sorted after. -/
def revocationOfProof (explored : Explored T) : MembershipOperation T → Option MembershipDigest
  | .revocation _ => none
  | .delegation dlg => do
    let proof ← dlg.payload.proof
    let revoked ← explored.revokedDependencies[proof.signature]?
    guard (explored.allOps.contains revoked)
    return revoked

def addOp (explored : Explored T) (adj : Adjacencies)
    (entry : MembershipDigest × MembershipOperation T × List MembershipDigest) : Adjacencies :=
  let (digest, op, parents) := entry
  let adj := { adj with sort := Topsort.addNode adj.sort digest }
  let adj := (parents.filter fun parent => explored.allOps.contains parent).foldl
    (fun adj parent => adj.addEdge digest parent) adj
  (explored.revocationOfProof op).toList.foldl (fun adj revoked => adj.addEdge digest revoked) adj

/-- The nodes and edges of all operations, in the order of their digests. -/
def adjacencies (explored : Explored T) : Adjacencies :=
  explored.allOps.toList.foldl explored.addOp .empty

end Explored

/-! ### Draining the sort -/

/-- Is there a revocation under this digest? -/
def isRevocationAt {T : Type} (allOps : AllOps T) (digest : MembershipDigest) : Bool :=
  match allOps[digest]? with
  | some (op, _) => op.isRevocation
  | none => false

/-- The order among revocations of one frontier: by their distance, then by their digest. -/
def seniorTo {T : Type} (allOps : AllOps T) (first second : MembershipDigest) : Prop :=
  distanceToRoot allOps first < distanceToRoot allOps second ∨
    (distanceToRoot allOps first = distanceToRoot allOps second ∧ (compare first second).isLE)

instance {T : Type} (allOps : AllOps T) : DecidableRel (seniorTo allOps) := fun _ _ =>
  inferInstanceAs (Decidable (_ ∨ _))

/-- Edges that make revocations come out one at a time, the last of them first. -/
def chain (sort : Topsort) : List MembershipDigest → Topsort
  | [] => sort
  | [only] => Topsort.addNode sort only
  | revocations =>
    (revocations.zip revocations.tail).foldl (fun sort pair => sort.addDependency pair.2 pair.1) sort

/-- Put revocations back that were popped, with their edges. -/
def putBack {T : Type} (allOps : AllOps T)
    (successorsOf : ExtTreeMap MembershipDigest (List MembershipDigest)) (sort : Topsort)
    (remaining : List MembershipDigest) : Topsort :=
  remaining.foldl (fun sort digest =>
    ((successorsOf.getD digest []).filter fun succ => allOps.contains succ).foldl
      (fun sort succ => sort.addDependency digest succ) sort) (chain sort remaining)

/-- The loop over the frontiers. Each of them gives out at least one operation; a circle ends it. -/
def drain {T : Type} (allOps : AllOps T)
    (successorsOf : ExtTreeMap MembershipDigest (List MembershipDigest)) :
    Nat → Topsort → List MembershipDigest → List MembershipDigest
  | 0, _, dependencies => dependencies
  | fuel + 1, sort, dependencies =>
    if sort.isEmpty then dependencies
    else
      let (batch, sort) := Topsort.popFrontier sort
      if batch.isEmpty then dependencies
      else
        let others := batch.filter fun digest => !isRevocationAt allOps digest
        let revocations := batch.filter fun digest => isRevocationAt allOps digest
        let dependencies := dependencies ++ others
        match revocations.insertionSort (seniorTo allOps) with
        | [] => drain allOps successorsOf fuel sort dependencies
        | first :: remaining =>
          drain allOps successorsOf fuel
            (if remaining.isEmpty then sort else putBack allOps successorsOf sort remaining)
            (dependencies ++ [first])

def Explored.dependencies {T : Type} (explored : Explored T) : List MembershipDigest :=
  drain explored.allOps explored.adjacencies.successorsOf (explored.allOps.size + 1)
    explored.adjacencies.sort []

/-- The operations that are reachable from the heads, dependents first. -/
def reverseTopsort {T : Type} (hash : MembershipOperation T → MembershipDigest) (order : HashOrder T)
    (delegationHeads : DelegationStore T) (revocationHeads : RevocationStore T) :
    List (MembershipDigest × MembershipOperation T) :=
  let explored := exploreHeads hash order delegationHeads revocationHeads
  explored.dependencies.filterMap fun digest =>
    (explored.allOps[digest]?).map fun entry => (digest, entry.1)

end KeyhiveEval.Core
