/-
**`treemath.rs`: the array representation, as the library uses it.**

The tree arithmetic of the BeeKEM crate was taken from here and is shared with its model; this module adds what only
the library has: copaths and the common path of two leaves.

* `directPath`, `copath`, `commonDirectPath` — the paths, or `none` if the walk never reaches the root.
* `directPath_eq`, `copath_eq` — the paths of a leaf of the tree, level by level.
* `copath_partitions` — the copath of a leaf splits the rest of the tree, and every other leaf is where the common
  ancestor says. The library finds logarithms by counting leading zeros, which has no limit, so all this holds up to
  `2 ^ 31` leaves.
-/

import KeyhiveEval.Beekem.Navigation

namespace KeyhiveEval.Mls

open PerfectTree
open Beekem (TreeNodeIndex TreeSize InSubtree node innerIdx Inside above twin)

/-! ### Paths -/

/-- The inner nodes from a leaf to the root, or `none` if the loop never ends. The tree arithmetic is that of the
BeeKEM crate, which was taken from here. -/
def directPath (leaf : Nat) (size : TreeSize) : Option (List Nat) :=
  match Beekem.directPath (.leaf leaf) size with
  | .ok path => some path
  | .error _ => none

/-- The siblings of a leaf and of the nodes on its path. The root is left out, but the leaf is not, even if it is the
root. -/
def copath (leaf : Nat) (size : TreeSize) : Option (List TreeNodeIndex) :=
  (directPath leaf size).map fun path =>
    (TreeNodeIndex.leaf leaf :: path.dropLast.map .inner).map Beekem.sibling

/-- What two paths have in common, from where they meet. -/
def commonEnd (first second : List Nat) : List Nat :=
  (((first.reverse.zip second.reverse).takeWhile fun pair => pair.1 = pair.2).map Prod.fst).reverse

/-- The path from the common ancestor of two leaves to the root. -/
def commonDirectPath (first second : Nat) (size : TreeSize) : Option (List Nat) := do
  let firstPath ← directPath first size
  let secondPath ← directPath second size
  return commonEnd firstPath secondPath

/-- The node on the copath of the first leaf whose subtree has the second one. -/
def subtreeRootCopathNode (first second : Nat) : TreeNodeIndex :=
  let subtreeRootNodeIndex := Beekem.lowestCommonAncestor first second
  if second < first then Beekem.left subtreeRootNodeIndex else Beekem.right subtreeRootNodeIndex

section Walks

variable {height k leaf : Nat}

theorem inside_path (within : leaf < 2 ^ height) (inTree : k ≤ height) : Inside height k (leaf / 2 ^ k) := by
  refine ⟨inTree, (Nat.div_lt_iff_lt_mul (Nat.two_pow_pos k)).mpr ?_⟩
  rwa [← pow_add, Nat.sub_add_cancel inTree]

theorem directPath_eq (low : height ≤ 31) (within : leaf < 2 ^ height) :
    directPath leaf (.ofHeight height) = some (above height 0 leaf) := by
  rw [directPath, Beekem.directPath_leaf_of_lt low within]

theorem above_eq_map (height leaf : Nat) :
    above height 0 leaf = (List.range height).map fun k => innerIdx (k + 1) (leaf / 2 ^ (k + 1)) := by
  induction height with
  | zero => rfl
  | succ height ih => rw [Beekem.above_succ_last, ih, List.range_succ, List.map_append, Nat.zero_add, List.map_singleton]

theorem copath_eq (low : height + 1 ≤ 31) (within : leaf < 2 ^ (height + 1)) :
    copath leaf (.ofHeight (height + 1))
      = some ((List.range (height + 1)).map fun k => node k (twin (leaf / 2 ^ k))) := by
  have nodes : (TreeNodeIndex.leaf leaf :: (above height 0 leaf).map .inner)
      = (List.range (height + 1)).map fun k => node k (leaf / 2 ^ k) := by
    rw [List.range_succ_eq_map, List.map_cons, List.map_map, above_eq_map, List.map_map, pow_zero, Nat.div_one,
      Beekem.node_zero]
    congr 1
    refine List.map_congr_left fun k _ => ?_
    exact (Beekem.node_succ k _).symm
  rw [copath, directPath_eq low within, Beekem.above_succ_last, Option.map_some, List.dropLast_concat, nodes, List.map_map]
  congr 1
  refine List.map_congr_left fun k member => ?_
  have level : k < height + 1 := List.mem_range.mp member
  have inside := inside_path within level.le
  exact Beekem.sibling_node (by omega) (inside.pos_lt_u32 low) ((inside.parent level).pos_lt_u32 low)

end Walks

/-! ### Copaths -/

section Copaths

variable {height k x y : Nat}

/-- A node and its twin have the same node above them. -/
theorem eq_twin_iff {p q : Nat} : q = twin p ↔ q / 2 = p / 2 ∧ q ≠ p := by
  unfold twin
  omega

/-- The leaves below the copath are told apart by where their paths meet that of the leaf. -/
theorem under_twin_iff : Under k (twin (x / 2 ^ k)) 0 y ↔ meet x y = k + 1 := by
  have upper := meet_le_iff (a := x) (b := y) (j := k + 1)
  have lower := meet_le_iff (a := x) (b := y) (j := k)
  rw [pow_succ, ← Nat.div_div_eq_div_mul, ← Nat.div_div_eq_div_mul] at upper
  unfold Under
  rw [Nat.sub_zero, eq_twin_iff]
  omega

theorem not_under_both {k' j q : Nat} (less : k < k') (first : Under k (twin (x / 2 ^ k)) j q)
    (second : Under k' (twin (x / 2 ^ k')) j q) : False := by
  have between := (first.comparable second less.le).2
  obtain ⟨d, rfl⟩ := Nat.exists_eq_add_of_lt less
  have half : twin (x / 2 ^ k) / 2 = x / 2 ^ k / 2 := by
    unfold twin
    omega
  rw [show k + d + 1 - k = d + 1 by omega, pow_succ', ← Nat.div_div_eq_div_mul, half, Nat.div_div_eq_div_mul,
    Nat.div_div_eq_div_mul, ← pow_succ', ← pow_add, ← Nat.add_assoc] at between
  exact Beekem.twin_ne _ between.symm

theorem inside_copath (within : x < 2 ^ height) (level : k < height) : Inside height k (twin (x / 2 ^ k)) :=
  (inside_path within level.le).twin level

theorem meet_le_height (first : x < 2 ^ height) (second : y < 2 ^ height) : meet x y ≤ height := by
  rw [meet_le_iff, Nat.div_eq_of_lt first, Nat.div_eq_of_lt second]

/-- The copath of a leaf, level by level. -/
def besides (height x : Nat) : List TreeNodeIndex := (List.range height).map fun k => node k (twin (x / 2 ^ k))

theorem disjoint_besides (low : height ≤ 31) (within : x < 2 ^ height) :
    (besides height x).Pairwise fun first second => ∀ index, ¬ (InSubtree first index ∧ InSubtree second index) := by
  refine List.pairwise_map.mpr (List.pairwise_lt_range.imp_of_mem ?_)
  rintro k k' first second less index ⟨inFirst, inSecond⟩
  obtain ⟨j, q, under, rfl⟩ :=
    (Beekem.inSubtree_node low (inside_copath within (List.mem_range.mp first))).mp inFirst
  have under' := (Beekem.inSubtree_nodes low (inside_copath within (List.mem_range.mp second))).mp inSecond
  exact not_under_both less under under'

/-- The subtree of the copath that has a leaf is the one below where the paths meet. -/
theorem mem_besides_iff (low : height ≤ 31) (within : x < 2 ^ height) {index : TreeNodeIndex} :
    (index ∈ besides height x ∧ InSubtree index (.leaf y))
      ↔ ∃ k < height, meet x y = k + 1 ∧ index = node k (twin (x / 2 ^ k)) := by
  constructor
  · rintro ⟨member, below⟩
    obtain ⟨k, level, rfl⟩ := List.mem_map.mp member
    replace level := List.mem_range.mp level
    rw [← Beekem.node_zero, Beekem.inSubtree_nodes low (inside_copath within level), under_twin_iff] at below
    exact ⟨k, level, below, rfl⟩
  · rintro ⟨k, level, meets, rfl⟩
    refine ⟨List.mem_map.mpr ⟨k, List.mem_range.mpr level, rfl⟩, ?_⟩
    rw [← Beekem.node_zero, Beekem.inSubtree_nodes low (inside_copath within level), under_twin_iff]
    exact meets

theorem ne_iff_mem_besides (low : height ≤ 31) (first : x < 2 ^ height) (second : y < 2 ^ height) :
    y ≠ x ↔ ∃ index ∈ besides height x, InSubtree index (.leaf y) := by
  have meets := meet_le_height first second
  constructor
  · intro apart
    have positive := meet_pos apart.symm
    exact ⟨_, (mem_besides_iff low first).mpr ⟨meet x y - 1, by omega, by omega, rfl⟩⟩
  · rintro ⟨index, found⟩ rfl
    obtain ⟨k, -, meets, -⟩ := (mem_besides_iff low first).mp found
    have : meet y y ≤ 0 := meet_le_iff.mpr rfl
    omega

/-- **The other child.** Of the two children of a node on the path one is towards the leaf, and the other is on the
copath. -/
theorem besides_getElem? (low : height ≤ 31) (within : x < 2 ^ height) {idx : Nat}
    (there : (above height 0 x)[k]? = some idx) :
    (InSubtree (Beekem.left idx) (.leaf x) ∧ ¬ InSubtree (Beekem.right idx) (.leaf x) ∧
        (besides height x)[k]? = some (Beekem.right idx)) ∨
      (InSubtree (Beekem.right idx) (.leaf x) ∧ ¬ InSubtree (Beekem.left idx) (.leaf x) ∧
        (besides height x)[k]? = some (Beekem.left idx)) := by
  rw [above_eq_map, List.getElem?_map, Option.map_eq_some_iff] at there
  obtain ⟨k', found, rfl⟩ := there
  obtain ⟨level, rfl⟩ := List.getElem?_eq_some_iff.mp found
  rw [List.length_range] at level
  simp only [List.getElem_range]
  have inside := inside_path within (show k + 1 ≤ height from level)
  rw [Beekem.left_inside low inside, Beekem.right_inside low inside, ← Beekem.node_zero,
    Beekem.inSubtree_nodes low (inside.child (by omega)), Beekem.inSubtree_nodes low (inside.child (by omega)),
    besides, List.getElem?_map, List.getElem?_range level, Option.map_some, pow_succ, ← Nat.div_div_eq_div_mul]
  unfold Under twin
  rw [Nat.sub_zero]
  rcases Nat.mod_two_eq_zero_or_one (x / 2 ^ k) with even | odd
  · left
    refine ⟨⟨Nat.zero_le k, by omega⟩, fun both => ?_, ?_⟩
    · have := both.2
      omega
    · rw [even]
  · right
    refine ⟨⟨Nat.zero_le k, by omega⟩, fun both => ?_, ?_⟩
    · have := both.2
      omega
    · rw [odd, Nat.sub_self, Nat.add_zero]

/-- The common end of two lists of one length that differ just before it. -/
theorem commonEnd_append {before before' shared : List Nat} (lengths : before.length = before'.length)
    (differ : ∀ last ∈ before.getLast?, last ∉ before'.getLast?) :
    commonEnd (before ++ shared) (before' ++ shared) = shared := by
  have stops : ((before.reverse.zip before'.reverse).takeWhile fun pair => pair.1 = pair.2) = [] := by
    rcases before.eq_nil_or_concat with rfl | ⟨init, last, rfl⟩
    · rfl
    · rcases before'.eq_nil_or_concat with rfl | ⟨init', last', rfl⟩
      · simp
      · have : last ≠ last' := by
          rintro rfl
          exact differ last (by simp) (by simp)
        simp [this]
  have same : ∀ pair ∈ shared.reverse.zip shared.reverse, (decide (pair.1 = pair.2)) = true := by
    intro pair member
    rw [List.zip_eq_zipWith, List.zipWith_self] at member
    obtain ⟨value, -, rfl⟩ := List.mem_map.mp member
    simp
  rw [commonEnd, List.reverse_append, List.reverse_append, List.zip_append rfl,
    List.takeWhile_append_of_pos same, stops, List.append_nil, List.map_fst_zip (le_refl _), List.reverse_reverse]

/-- **The common path** of two leaves is the end of either path, from where they meet. -/
theorem commonEnd_above (first : x < 2 ^ height) (second : y < 2 ^ height) {m : Nat} (meets : meet x y = m + 1) :
    commonEnd (above height 0 x) (above height 0 y)
      = innerIdx (m + 1) (x / 2 ^ (m + 1)) :: above (height - (m + 1)) (m + 1) (x / 2 ^ (m + 1)) := by
  have inTree : m < height := by
    have := meet_le_height first second
    omega
  have same : x / 2 ^ (m + 1) = y / 2 ^ (m + 1) := meet_le_iff.mp meets.le
  rw [Beekem.above_split inTree x, Beekem.above_split inTree y, ← same]
  refine commonEnd_append (by rw [Beekem.length_above, Beekem.length_above]) ?_
  cases m with
  | zero => simp [above]
  | succ m =>
    have apart : x / 2 ^ (m + 1) ≠ y / 2 ^ (m + 1) := by
      intro equal
      have := meet_le_iff.mpr equal
      omega
    rw [Beekem.above_succ_last, Beekem.above_succ_last]
    simp only [List.getLast?_append, List.getLast?_singleton, Option.some_or, Option.mem_def, Option.some.injEq,
      Nat.zero_add]
    rintro last rfl equal
    exact apart (Beekem.innerIdx_injective equal).2.symm

/-- **Where the common ancestor leads**: the child towards the second leaf is on the copath of the first. -/
theorem subtreeRootCopathNode_eq (low : height ≤ 31) (first : x < 2 ^ height) (second : y < 2 ^ height)
    (meets : meet x y = k + 1) : subtreeRootCopathNode x y = node k (twin (x / 2 ^ k)) := by
  have apart : x ≠ y := by
    rintro rfl
    have : meet x x ≤ 0 := meet_le_iff.mpr rfl
    omega
  have level := meet_le_height first second
  have inside := inside_path first (show k + 1 ≤ height by omega)
  have same := (under_twin_iff.mpr meets).2
  rw [Nat.sub_zero] at same
  rw [subtreeRootCopathNode, Beekem.lowestCommonAncestor_eq low first second apart, meets,
    Beekem.left_inside low inside, Beekem.right_inside low inside, pow_succ, ← Nat.div_div_eq_div_mul]
  unfold twin at same ⊢
  split
  · rename_i less
    have := Nat.div_le_div_right (c := 2 ^ k) less.le
    rw [show x / 2 ^ k % 2 = 1 by omega, Nat.sub_self, Nat.add_zero]
  · rename_i more
    have := Nat.div_le_div_right (c := 2 ^ k) (Nat.le_of_not_lt more)
    rw [show x / 2 ^ k % 2 = 0 by omega]

end Copaths

/-- **The copath of a leaf partitions the rest of the tree.** -/
theorem copath_partitions {height x : Nat} (positive : 1 ≤ height) (low : height ≤ 31)
    (within : (TreeSize.ofHeight height).Contains (.leaf x)) :
    ∃ path siblings, directPath x (.ofHeight height) = some path ∧ copath x (.ofHeight height) = some siblings ∧
      (siblings.Pairwise fun first second => ∀ index, ¬ (InSubtree first index ∧ InSubtree second index)) ∧
      (∀ y, (TreeSize.ofHeight height).Contains (.leaf y) →
        (y ≠ x ↔ ∃ index ∈ siblings, InSubtree index (.leaf y))) ∧
      siblings.length = path.length ∧
      (∀ (k idx : Nat), path[k]? = some idx →
        (InSubtree (Beekem.left idx) (.leaf x) ∧ ¬ InSubtree (Beekem.right idx) (.leaf x) ∧
          siblings[k]? = some (Beekem.right idx)) ∨
        (InSubtree (Beekem.right idx) (.leaf x) ∧ ¬ InSubtree (Beekem.left idx) (.leaf x) ∧
          siblings[k]? = some (Beekem.left idx))) ∧
      ∀ y, (TreeSize.ofHeight height).Contains (.leaf y) → y ≠ x →
        (∃ before common, commonDirectPath x y (.ofHeight height) = some common ∧ path = before ++ common ∧
          common.head? = some (Beekem.lowestCommonAncestor x y)) ∧
        ∀ index, (index ∈ siblings ∧ InSubtree index (.leaf y)) ↔ index = subtreeRootCopathNode x y := by
  rw [Beekem.contains_leaf] at within
  have copathHere : copath x (.ofHeight height) = some (besides height x) := by
    obtain ⟨below, rfl⟩ := Nat.exists_eq_succ_of_ne_zero (Nat.ne_of_gt positive)
    exact copath_eq low within
  refine ⟨_, _, directPath_eq low within, copathHere, disjoint_besides low within, fun y inTree => ?_, ?_,
    fun k idx there => besides_getElem? low within there, fun y inTree apart => ?_⟩
  · rw [Beekem.contains_leaf] at inTree
    exact ne_iff_mem_besides low within inTree
  · rw [besides, List.length_map, List.length_range, Beekem.length_above]
  · rw [Beekem.contains_leaf] at inTree
    obtain ⟨m, meets⟩ := Nat.exists_eq_succ_of_ne_zero (Nat.ne_of_gt (meet_pos apart.symm))
    have level := meet_le_height within inTree
    have common : commonDirectPath x y (.ofHeight height)
        = some (commonEnd (above height 0 x) (above height 0 y)) := by
      rw [commonDirectPath, directPath_eq low within, directPath_eq low inTree]
      rfl
    rw [commonEnd_above within inTree meets] at common
    refine ⟨⟨above m 0 x, _, common, Beekem.above_split (by omega) x, ?_⟩, fun index => ?_⟩
    · rw [Beekem.lowestCommonAncestor_eq low within inTree apart.symm, meets]
      rfl
    · rw [mem_besides_iff low within, subtreeRootCopathNode_eq low within inTree meets]
      constructor
      · rintro ⟨k, -, meets', rfl⟩
        obtain rfl : k = m := by omega
        rfl
      · rintro rfl
        exact ⟨m, by omega, meets, rfl⟩

/-- In the largest tree the copath of the first leaf has a node above the last. -/
theorem copath_partitions_largest : ∃ siblings, copath 0 (.ofHeight 31) = some siblings ∧
    ∃ index ∈ siblings, InSubtree index (.leaf (2 ^ 31 - 1)) := by
  have inTree : ∀ leaf < 2 ^ 31, (TreeSize.ofHeight 31).Contains (.leaf leaf) := fun leaf within =>
    Beekem.contains_leaf.mpr within
  obtain ⟨-, siblings, -, found, -, covered, -⟩ :=
    copath_partitions (by decide) (le_refl 31) (inTree 0 (by decide))
  exact ⟨siblings, found, (covered _ (inTree _ (by decide))).mp (by decide)⟩

end KeyhiveEval.Mls
