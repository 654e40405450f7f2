/-
**The nodes of a tree by their coordinates, and the resolution of a subtree.**

* `nodeAt` — what stands at node `p` of level `k`, a leaf or an inner node.
* `resolution` — the highest nodes of a subtree that are neither blank nor in conflict, the cover of
  the subtree by its usable nodes (`PerfectTree.cover`). `appendResolution_eq` connects it with the
  recursion of the source.
-/

import KeyhiveEval.Beekem.KeyPaths

namespace KeyhiveEval.Beekem

open Std PerfectTree

/-! ### Nodes -/

/-- What stands at a node that is not blank. -/
inductive Content
  | leaf (node : LeafNode)
  | inner (node : InnerNode)
deriving DecidableEq

namespace Content

/-- Whether a resolution stops at the node. -/
def usable : Content → Bool
  | leaf _ => true
  | inner node => !node.hasConflict

def nodeKey : Content → Res NodeKey
  | leaf node => .ok node.pk
  | inner node => node.nodeKey

end Content

namespace BeeKem

def nodeAt (tree : BeeKem) : Nat → Nat → Option Content
  | 0, p => tree.leaves[p]?.join.map .leaf
  | k + 1, p => tree.innerNodes[innerIdx (k + 1) p]?.join.map .inner

def usableAt (tree : BeeKem) (k p : Nat) : Bool := (tree.nodeAt k p).any Content.usable

variable {tree : BeeKem} {h p : Nat}

theorem Shaped.leaf_at (shaped : tree.Shaped h) (inside : Inside h 0 p) :
    ∃ found, tree.leaf p = .ok found ∧ tree.nodeAt 0 p = found.map .leaf := by
  obtain ⟨found, here, read⟩ := shaped.leaf_eq (inside_leaf.mp inside)
  refine ⟨found, read, ?_⟩
  rw [nodeAt, here, Option.join_some]

variable {k : Nat}

theorem Shaped.innerNode_at (shaped : tree.Shaped h)
    (inside : Inside h (k + 1) p) :
    ∃ found, tree.innerNode (innerIdx (k + 1) p) = .ok found ∧
      tree.nodeAt (k + 1) p = found.map .inner := by
  have bound : innerIdx (k + 1) p < tree.innerNodes.length := by
    rw [shaped.inner]
    exact inside.innerIdx_lt
  have here := List.getElem?_eq_getElem bound
  refine ⟨_, innerNode_ok_iff.mpr here, ?_⟩
  rw [nodeAt, here, Option.join_some]

theorem Shaped.shouldSkip_eq (shaped : tree.Shaped h)
    (inside : Inside h k p) :
    tree.shouldSkipForResolution (node k p) = .ok (!tree.usableAt k p) := by
  unfold usableAt
  cases k with
  | zero =>
    obtain ⟨found, read, here⟩ := shaped.leaf_at inside
    rw [node_zero, here]
    simp only [shouldSkipForResolution, read, bind, Except.bind, pure, Except.pure]
    cases found <;> rfl
  | succ k =>
    obtain ⟨found, read, here⟩ := shaped.innerNode_at inside
    rw [node_succ, here]
    simp only [shouldSkipForResolution, read, bind, Except.bind, pure, Except.pure]
    cases found with
    | none => rfl
    | some store => simp [Content.usable]

theorem Shaped.nodeKeyForIndex_eq (shaped : tree.Shaped h)
    (inside : Inside h k p) :
    tree.nodeKeyForIndex (node k p)
      = match tree.nodeAt k p with
        | none => .error (.err .shareKeyNotFound)
        | some content => content.nodeKey := by
  cases k with
  | zero =>
    obtain ⟨found, read, here⟩ := shaped.leaf_at inside
    rw [node_zero, here]
    simp only [nodeKeyForIndex, read, bind, Except.bind]
    cases found <;> rfl
  | succ k =>
    obtain ⟨found, read, here⟩ := shaped.innerNode_at inside
    rw [node_succ, here]
    simp only [nodeKeyForIndex, read, bind, Except.bind]
    cases found <;> rfl

/-! ### Resolutions -/

/-- The highest usable nodes below a node. -/
def resolution (tree : BeeKem) (k p : Nat) : List (Nat × Nat) := cover tree.usableAt k p

/-- The numbers that the source has for the nodes of a resolution. -/
def resolutionIdxs (tree : BeeKem) (k p : Nat) : List TreeNodeIndex :=
  (tree.resolution k p).map fun coordinates => node coordinates.1 coordinates.2

/-- **The recursion of the source collects the resolution.** -/
theorem Shaped.appendResolution_eq {fuel : Nat} (shaped : tree.Shaped h)
    (inside : Inside h k p) (enough : k < fuel) (acc : List TreeNodeIndex) :
    tree.appendResolution fuel (node k p) acc = .ok (acc ++ tree.resolutionIdxs k p) := by
  have low := shaped.low
  induction k generalizing p fuel acc with
  | zero =>
    obtain ⟨fuel, rfl⟩ := Nat.exists_eq_succ_of_ne_zero (Nat.ne_of_gt enough)
    unfold appendResolution resolutionIdxs resolution
    rw [shaped.shouldSkip_eq inside, node_zero, cover]
    by_cases usable : tree.usableAt 0 p = true
    · simp [bind, Except.bind, pure, Except.pure, usable, node_zero]
    · simp [bind, Except.bind, pure, Except.pure, usable]
  | succ k ih =>
    obtain ⟨fuel, rfl⟩ := Nat.exists_eq_succ_of_ne_zero (Nat.ne_of_gt (Nat.zero_lt_of_lt enough))
    have level := inside.level
    have small := inside.pos_lt_u32 (by omega)
    have onLeft (acc : List TreeNodeIndex) :
        tree.appendResolution fuel (node k (2 * p)) acc = _ :=
      ih (inside.child (by omega)) (by omega) acc
    have onRight (acc : List TreeNodeIndex) :
        tree.appendResolution fuel (node k (2 * p + 1)) acc = _ :=
      ih (inside.child (by omega)) (by omega) acc
    unfold appendResolution
    rw [shaped.shouldSkip_eq inside, node_succ]
    unfold resolutionIdxs resolution at onLeft onRight ⊢
    rw [cover]
    by_cases usable : tree.usableAt (k + 1) p = true
    · simp [bind, Except.bind, pure, Except.pure, usable, node_succ]
    · simp [bind, Except.bind, usable, left_node (show k ≤ 30 by omega) small,
        right_node (show k ≤ 30 by omega) small, onLeft, onRight]

/-- The resolution and its keys depend on the nodes of the subtree only. -/
theorem resolution_congr {tree' : BeeKem}
    (same : ∀ j q, Under k p j q → tree.nodeAt j q = tree'.nodeAt j q) :
    tree.resolution k p = tree'.resolution k p :=
  cover_congr fun j q under => by rw [usableAt, usableAt, same j q under]

end BeeKem

end KeyhiveEval.Beekem
