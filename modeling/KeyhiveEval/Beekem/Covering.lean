/-
**A resolution covers every member of its subtree once.**

`append_resolution` stops at the highest nodes that it does not skip. Whatever is blank or in conflict, these are
disjoint, none of them is blank, and every leaf that is not blank is below exactly one of them.

* `shouldSkipForResolution` looks for conflicts in inner nodes only. A leaf whose member has two concurrent keys is
  returned like any other, and `encryptNewSecretStoreForParent` panics on it. `appendResolution_covers` says when that
  happens, and `Sample.conflicting_leaf_resolved` is a tree where it does.
-/

import KeyhiveEval.Beekem.Navigation
import KeyhiveEval.Beekem.ConcurrentPaths

namespace KeyhiveEval.Beekem

open Std PerfectTree

namespace BeeKem

/-! ### Blank nodes and conflicts -/

def isBlank (tree : BeeKem) : TreeNodeIndex → Res Bool
  | .leaf idx => do
    let node ← tree.leaf idx
    return node.isNone
  | .inner idx => do
    let node ← tree.innerNode idx
    return node.isNone

/-- Whether a node has several keys. -/
def InConflict (tree : BeeKem) (index : TreeNodeIndex) : Prop :=
  ∃ keys, tree.nodeKeyForIndex index = .ok (.conflictKeys keys)

variable {tree : BeeKem} {h k p : Nat}

theorem Shaped.isBlank_eq (shaped : tree.Shaped h) (inside : Inside h k p) :
    tree.isBlank (node k p) = .ok (tree.nodeAt k p).isNone := by
  cases k with
  | zero =>
    obtain ⟨found, read, here⟩ := shaped.leaf_at inside
    rw [node_zero, here]
    simp only [isBlank, read, bind, Except.bind, pure, Except.pure]
    cases found <;> rfl
  | succ k =>
    obtain ⟨found, read, here⟩ := shaped.innerNode_at inside
    rw [node_succ, here]
    simp only [isBlank, read, bind, Except.bind, pure, Except.pure]
    cases found <;> rfl

theorem hasConflict_iff (store : SecretStore) :
    store.hasConflict = true ↔ ∃ keys, store.nodeKey = .ok (.conflictKeys keys) := by
  rcases store with ⟨_ | ⟨first, _ | ⟨second, more⟩⟩⟩ <;>
    simp [SecretStore.hasConflict, SecretStore.nodeKey, NodeKey.ofKeys]

/-- A node that a resolution stops at has several keys only if it is a leaf. -/
theorem Shaped.inConflict_inner (shaped : tree.Shaped h) (inside : Inside h (k + 1) p) :
    tree.usableAt (k + 1) p = true ↔
      tree.isBlank (node (k + 1) p) = .ok false ∧ ¬ tree.InConflict (node (k + 1) p) := by
  obtain ⟨found, -, here⟩ := shaped.innerNode_at inside
  rw [shaped.isBlank_eq inside, InConflict, shaped.nodeKeyForIndex_eq inside, usableAt, here]
  cases found with
  | none => simp
  | some store =>
    have conflict := hasConflict_iff store
    simp only [Option.map_some, Option.any_some, Content.usable, Content.nodeKey, Option.isNone_some, true_and,
      Bool.not_eq_true', ← conflict, Bool.not_eq_true]

theorem Shaped.usableAt_leaf (shaped : tree.Shaped h) (inside : Inside h 0 p) :
    tree.usableAt 0 p = true ↔ tree.isBlank (.leaf p) = .ok false := by
  obtain ⟨found, -, here⟩ := shaped.leaf_at inside
  rw [← node_zero, shaped.isBlank_eq inside, usableAt, here]
  cases found <;> simp [Content.usable]

theorem Shaped.usableAt_of_inConflict (shaped : tree.Shaped h) (inside : Inside h 0 p)
    (conflict : tree.InConflict (.leaf p)) : tree.usableAt 0 p = true := by
  obtain ⟨keys, key⟩ := conflict
  obtain ⟨found, -, here⟩ := shaped.leaf_at inside
  rw [← node_zero, shaped.nodeKeyForIndex_eq inside, here] at key
  rw [usableAt, here]
  cases found with
  | none => simp at key
  | some leaf => rfl

/-! ### The cover -/

/-- Nodes of a subtree that its members can be reached through. -/
structure Covers (tree : BeeKem) (top : TreeNodeIndex) (found : List TreeNodeIndex) : Prop where
  disjoint : found.Pairwise fun first second => ¬ InSubtree first second ∧ ¬ InSubtree second first
  within : ∀ index ∈ found, InSubtree top index
  notBlank : ∀ index ∈ found, tree.isBlank index = .ok false
  inner : ∀ idx, .inner idx ∈ found → ¬ tree.InConflict (.inner idx)
  once : ∀ leaf, InSubtree top (.leaf leaf) → tree.isBlank (.leaf leaf) = .ok false →
    ∃! index, index ∈ found ∧ InSubtree index (.leaf leaf)

/-- Whether every leaf of a subtree that has several keys has a usable inner node of the subtree above it. -/
def Shielded (tree : BeeKem) (top : TreeNodeIndex) : Prop :=
  ∀ leaf, InSubtree top (.leaf leaf) → tree.InConflict (.leaf leaf) →
    ∃ idx, InSubtree top (.inner idx) ∧ InSubtree (.inner idx) (.leaf leaf) ∧
      tree.isBlank (.inner idx) = .ok false ∧ ¬ tree.InConflict (.inner idx)

section Cover

variable (shaped : tree.Shaped h) (inside : Inside h k p)

include shaped inside

omit shaped in
theorem mem_resolutionIdxs {index : TreeNodeIndex} (member : index ∈ tree.resolutionIdxs k p) :
    ∃ j q, index = node j q ∧ Inside h j q ∧ (j, q) ∈ cover tree.usableAt k p := by
  obtain ⟨⟨j, q⟩, there, rfl⟩ := List.mem_map.mp member
  exact ⟨j, q, rfl, inside.of_under (mem_cover.mp there).1, there⟩

theorem resolutionIdxs_covers : tree.Covers (node k p) (tree.resolutionIdxs k p) := by
  have low : h ≤ 31 := shaped.low.trans (by decide)
  constructor
  case disjoint =>
    refine List.pairwise_map.mpr (List.Pairwise.imp_of_mem ?_ (pairwise_cover tree.usableAt k p))
    intro a b first second apart
    rw [inSubtree_nodes low (inside.of_under (mem_cover.mp first).1),
      inSubtree_nodes low (inside.of_under (mem_cover.mp second).1)]
    exact apart
  case within =>
    intro index member
    obtain ⟨j, q, rfl, -, there⟩ := mem_resolutionIdxs inside member
    exact inSubtree_of_under low inside (mem_cover.mp there).1
  case notBlank =>
    intro index member
    obtain ⟨j, q, rfl, here, there⟩ := mem_resolutionIdxs inside member
    have usable := (mem_cover.mp there).2.1
    cases j with
    | zero =>
      rw [node_zero]
      exact (shaped.usableAt_leaf here).mp usable
    | succ j => exact ((shaped.inConflict_inner here).mp usable).1
  case inner =>
    intro idx member
    obtain ⟨j, q, same, here, there⟩ := mem_resolutionIdxs inside member
    have usable := (mem_cover.mp there).2.1
    cases j with
    | zero =>
      rw [node_zero] at same
      simp at same
    | succ j =>
      rw [same]
      exact ((shaped.inConflict_inner here).mp usable).2
  case once =>
    intro leaf below notBlank
    rw [← node_zero, inSubtree_nodes low inside] at below
    have usable := (shaped.usableAt_leaf (inside.of_under below)).mpr notBlank
    obtain ⟨⟨j, q⟩, member, under⟩ := exists_mem_cover usable below
    have reach := inside.of_under (mem_cover.mp member).1
    refine ⟨node j q, ⟨List.mem_map.mpr ⟨(j, q), member, rfl⟩, ?_⟩, ?_⟩
    · rw [← node_zero]
      exact inSubtree_of_under low reach under
    · rintro index ⟨member', under'⟩
      obtain ⟨i, r, rfl, here, there⟩ := mem_resolutionIdxs inside member'
      rw [← node_zero, inSubtree_nodes low here] at under'
      -- Of the two, one is above the other, and a cover has no two such nodes.
      rcases Nat.le_total i j with lower | higher
      · have same := eq_of_mem_cover there (mem_cover.mp member).1.1 (mem_cover.mp member).2.1
          (under'.comparable under lower)
        obtain ⟨rfl, rfl⟩ := Prod.mk.inj same
        rfl
      · have same := eq_of_mem_cover member (mem_cover.mp there).1.1 (mem_cover.mp there).2.1
          (under.comparable under' higher)
        obtain ⟨rfl, rfl⟩ := Prod.mk.inj same
        rfl

theorem no_conflict_iff_shielded :
    (∀ index ∈ tree.resolutionIdxs k p, ¬ tree.InConflict index) ↔ tree.Shielded (node k p) := by
  have low : h ≤ 31 := shaped.low.trans (by decide)
  have covers := resolutionIdxs_covers shaped inside
  constructor
  · intro clear leaf below conflict
    have here := below
    rw [← node_zero, inSubtree_nodes low inside] at here
    have leafInside := inside.of_under here
    have notBlank := (shaped.usableAt_leaf leafInside).mp (shaped.usableAt_of_inConflict leafInside conflict)
    obtain ⟨index, ⟨member, above⟩, -⟩ := covers.once leaf below notBlank
    cases index with
    | leaf other =>
      cases above
      exact absurd conflict (clear _ member)
    | inner idx => exact ⟨idx, covers.within _ member, above, covers.notBlank _ member, clear _ member⟩
  · intro shielded index member conflict
    obtain ⟨j, q, rfl, here, there⟩ := mem_resolutionIdxs inside member
    cases j with
    | succ j =>
      rw [node_succ] at member conflict
      exact covers.inner _ member conflict
    | zero =>
      rw [node_zero] at conflict
      have below := covers.within _ member
      rw [node_zero] at below
      obtain ⟨idx, within, above, notBlank, clear⟩ := shielded q below conflict
      obtain ⟨i, r, under, same⟩ := (inSubtree_node low inside).mp within
      cases i with
      | zero =>
        rw [node_zero] at same
        simp at same
      | succ i =>
        have upper := inside.of_under under
        rw [same] at notBlank clear above
        have usable := (shaped.inConflict_inner upper).mpr ⟨notBlank, clear⟩
        rw [← node_zero, inSubtree_nodes low upper] at above
        have := eq_of_mem_cover there under.1 usable above
        simp at this

end Cover

/-- **What a resolution returns.** For every node of every tree: disjoint nodes of its subtree, none blank and no inner
one in conflict, that have every member below exactly one of them. None of them has several keys exactly if no leaf with
several keys is exposed. -/
theorem appendResolution_covers {top : TreeNodeIndex} (shaped : tree.Shaped h)
    (contained : tree.treeSize.Contains top) :
    ∃ found, tree.appendResolution walkFuel top [] = .ok found ∧ tree.Covers top found ∧
      ((∀ index ∈ found, ¬ tree.InConflict index) ↔ tree.Shielded top) := by
  rw [shaped.size] at contained
  obtain ⟨k, p, inside, rfl⟩ := contains_ofHeight.mp contained
  have level := inside.level
  have low := shaped.low
  refine ⟨_, shaped.appendResolution_eq inside (by unfold walkFuel; omega) [], ?_, ?_⟩
  · rw [List.nil_append]
    exact resolutionIdxs_covers shaped inside
  · rw [List.nil_append]
    exact no_conflict_iff_shielded shaped inside

end BeeKem

namespace Sample

/-- A tree of two members after two concurrent updates of one of them, and what holds of it. -/
def doubleUpdate (check : BeeKem → Bool) : Bool :=
  match pair with
  | .ok tree =>
    match updateOf 1 0x50 tree, updateOf 1 0x70 tree with
    | .ok _ tree₁, .ok (_, two) _ =>
      match tree₁.applyPath two with
      | .ok both => check both
      | .error _ => false
    | _, _ => false
  | .error _ => false

theorem of_doubleUpdate (check : BeeKem → Bool) (passes : doubleUpdate check = true) :
    ∃ tree key₁ key₂ one two tree₁ tree₂ both, pair = .ok tree ∧ updateOf 1 0x50 tree = .ok (key₁, one) tree₁ ∧
      updateOf 1 0x70 tree = .ok (key₂, two) tree₂ ∧ tree₁.applyPath two = .ok both ∧ check both = true := by
  unfold doubleUpdate at passes
  split at passes
  · rename_i tree built
    split at passes
    · rename_i made tree₁ key₂ two tree₂ first second
      split at passes
      · rename_i both applies
        exact ⟨tree, made.1, key₂, made.2, two, tree₁, tree₂, both, built, first, second, applies, passes⟩
      · simp at passes
    · simp at passes
  · simp at passes

/-- The leaf of the first member resolves to itself, has two keys, and keeps the other from updating. -/
def conflictIsReturned (both : BeeKem) : Bool :=
  (match both.appendResolution walkFuel (.leaf 0) [] with
    | .ok found => decide (found = [.leaf 0])
    | .error _ => false) &&
  (match both.nodeKeyForIndex (.leaf 0) with
    | .ok (.conflictKeys _) => true
    | _ => false) &&
  (match updateOf 2 0x60 both with
    | .error (.panic message) _ => decide (message = "Sibling resolution nodes should have exactly one ShareKey")
    | _ => false)

/-- **A leaf with two keys is returned.** The first member updates its key twice, each time without the other; whoever
has taken over both finds its leaf as the resolution of that leaf, and cannot encrypt a key for it. -/
theorem conflicting_leaf_resolved : ∃ tree key₁ key₂ one two tree₁ tree₂ both, pair = .ok tree ∧
    updateOf 1 0x50 tree = .ok (key₁, one) tree₁ ∧ updateOf 1 0x70 tree = .ok (key₂, two) tree₂ ∧
    tree₁.applyPath two = .ok both ∧ both.appendResolution walkFuel (.leaf 0) [] = .ok [.leaf 0] ∧
    both.InConflict (.leaf 0) ∧
    ∃ left, updateOf 2 0x60 both
      = .error (.panic "Sibling resolution nodes should have exactly one ShareKey") left := by
  obtain ⟨tree, key₁, key₂, one, two, tree₁, tree₂, both, built, first, second, applies, checked⟩ :=
    of_doubleUpdate conflictIsReturned (by decide +kernel)
  simp only [conflictIsReturned, Bool.and_eq_true] at checked
  obtain ⟨⟨resolved, conflict⟩, panics⟩ := checked
  refine ⟨tree, key₁, key₂, one, two, tree₁, tree₂, both, built, first, second, applies, ?_, ?_, ?_⟩
  · split at resolved
    · rename_i found returns
      rw [returns, of_decide_eq_true resolved]
    · simp at resolved
  · split at conflict
    · rename_i keys read
      exact ⟨keys, read⟩
    · simp at conflict
  · split at panics
    · rename_i message left returns
      exact ⟨left, by rw [returns, of_decide_eq_true panics]⟩
    · simp at panics

/-- In the tree of two members no leaf is in conflict, and the root resolves to its two leaves. -/
theorem appendResolution_pair : ∃ tree found, pair = .ok tree ∧
    tree.appendResolution walkFuel (root tree.treeSize) [] = .ok found ∧ tree.Covers (root tree.treeSize) found := by
  obtain ⟨tree, -, -, -, -, -, -, built, -, -, -⟩ := of_twoUpdates (fun _ _ _ _ => true) (by decide +kernel)
  obtain ⟨-, h, shaped⟩ := pair_bijective built
  have contained : tree.treeSize.Contains (root tree.treeSize) := by
    rw [shaped.size, root_ofHeight]
    exact contains_node (inside_root h)
  obtain ⟨found, returns, covers, -⟩ := BeeKem.appendResolution_covers shaped contained
  exact ⟨tree, found, built, returns, covers⟩

end Sample

end KeyhiveEval.Beekem
