/-
**`topsort.rs`: a topological sort that pops whole layers.**

The crate's `Map` and `Set` are hash tables with the `std` feature and ordered trees without it.
Both are modelled by ordered trees: where the source walks a hash table, either the order has no
effect on the result or the result is sorted afterwards.
-/

import KeyhiveEval.Beekem.Basic

namespace KeyhiveEval.Beekem

open Std

section

variable {T : Type} [Ord T] [TransOrd T]

/-- `map.entry(key).or_default()`, for its effect on the map. -/
def orDefault (map : ExtTreeMap T (ExtTreeSet T)) (key : T) : ExtTreeMap T (ExtTreeSet T) :=
  if map.contains key then map else map.insert key ∅

/-- `map.entry(key).or_default().insert(value)`. -/
def insertAt (map : ExtTreeMap T (ExtTreeSet T)) (key value : T) : ExtTreeMap T (ExtTreeSet T) :=
  map.insert key ((map.getD key ∅).insert value)

/-- `map.get_mut(key).remove(value)`, where the key is present. -/
def removeAt (map : ExtTreeMap T (ExtTreeSet T)) (key value : T) : ExtTreeMap T (ExtTreeSet T) :=
  match map[key]? with
  | some values => map.insert key (values.erase value)
  | none => map

end

/-- The nodes that are left, with what each depends on and what depends on it. -/
structure TopologicalSort (T : Type) [Ord T] [TransOrd T] where
  deps : ExtTreeMap T (ExtTreeSet T)
  rdeps : ExtTreeMap T (ExtTreeSet T)

namespace TopologicalSort

variable {T : Type} [Ord T] [TransOrd T]

def new : TopologicalSort T := ⟨∅, ∅⟩

def addDependency (sort : TopologicalSort T) (dependency dependent : T) : TopologicalSort T :=
  { deps := insertAt (orDefault sort.deps dependency) dependent dependency
    rdeps := insertAt (orDefault sort.rdeps dependent) dependency dependent }

def isEmpty (sort : TopologicalSort T) : Bool := sort.deps.isEmpty

def pop (sort : TopologicalSort T) (node : T) : TopologicalSort T :=
  let deps := sort.deps.erase node
  match sort.rdeps[node]? with
  | none => { sort with deps }
  | some dependents =>
    { deps := dependents.foldl (fun deps dependent => removeAt deps dependent node) deps
      rdeps := sort.rdeps.erase node }

def ready (sort : TopologicalSort T) : List T :=
  (sort.deps.toList.filter fun entry => entry.2.isEmpty).map fun entry => entry.1

/-- Take out all the nodes that depend on nothing. -/
def popAll (sort : TopologicalSort T) : List T × TopologicalSort T :=
  (sort.ready, sort.ready.foldl pop sort)

end TopologicalSort

end KeyhiveEval.Beekem
