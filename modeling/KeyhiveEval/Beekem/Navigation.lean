/-
**Navigation in `treemath.rs` is navigation in a perfect binary tree.**

The laws are stated about the functions of the source alone, without the coordinates of `TreeWalk`: which nodes a tree
has is read off its size, how far a node is from the root is counted along `left` and `right`, and the subtree of a node
is what `left` and `right` lead to.

* `InSubtree`, `inSubtree_node` — the subtree of a node.
* `Depth`, `depth_node_iff` — the distance to the root.
* `PerfectNavigation` — the laws. `perfectNavigation` has them for every size up to `2 ^ 31 - 1`; for the next one the
  loop of `log2`, and with it `root`, never ends.
-/

import KeyhiveEval.Beekem.TreeWalk

namespace KeyhiveEval.Beekem

open PerfectTree

/-! ### The nodes of a tree -/

/-- Whether a node is one of the tree. -/
def TreeSize.Contains (size : TreeSize) (index : TreeNodeIndex) : Prop := index.position < size.nodes

variable {h k p : Nat} {index : TreeNodeIndex}

theorem contains_ofHeight : (TreeSize.ofHeight h).Contains index ↔ ∃ k p, Inside h k p ∧ index = node k p := by
  constructor
  · intro contained
    obtain ⟨k, p, here⟩ := exists_pos index.position
    refine ⟨k, p, inside_iff_pos_lt.mpr ?_, TreeNodeIndex.position_injective ?_⟩
    · rw [← here]
      exact contained
    · rw [here, position_node]
  · rintro ⟨k, p, inside, rfl⟩
    show (node k p).position < 2 ^ (h + 1) - 1
    rw [position_node]
    exact inside_iff_pos_lt.mp inside

theorem contains_node (inside : Inside h k p) : (TreeSize.ofHeight h).Contains (node k p) :=
  contains_ofHeight.mpr ⟨k, p, inside, rfl⟩

theorem contains_leaf {idx : Nat} : (TreeSize.ofHeight h).Contains (.leaf idx) ↔ idx < 2 ^ h := by
  constructor
  · intro contained
    obtain ⟨k, p, inside, here⟩ := contains_ofHeight.mp contained
    rw [← node_zero] at here
    obtain ⟨rfl, rfl⟩ := node_injective here
    exact inside.within
  · intro within
    rw [← node_zero]
    exact contains_node (inside_leaf.mpr within)

theorem contains_inner {idx : Nat} (contained : (TreeSize.ofHeight h).Contains (.inner idx)) :
    ∃ k p, Inside h (k + 1) p ∧ idx = innerIdx (k + 1) p := by
  obtain ⟨k, p, inside, here⟩ := contains_ofHeight.mp contained
  cases k with
  | zero =>
    rw [node_zero] at here
    simp at here
  | succ k =>
    rw [node_succ] at here
    exact ⟨k, p, inside, TreeNodeIndex.inner.inj here⟩

/-! ### Subtrees -/

/-- The nodes of the subtree of a node: the node, and those of the subtrees of its children. -/
inductive InSubtree : TreeNodeIndex → TreeNodeIndex → Prop
  | top (index : TreeNodeIndex) : InSubtree index index
  | left {idx : Nat} {index : TreeNodeIndex} : InSubtree (left idx) index → InSubtree (.inner idx) index
  | right {idx : Nat} {index : TreeNodeIndex} : InSubtree (right idx) index → InSubtree (.inner idx) index

theorem left_inside (low : h ≤ 31) (inside : Inside h (k + 1) p) : left (innerIdx (k + 1) p) = node k (2 * p) := by
  have level := inside.level
  exact left_node (by omega) (inside.pos_lt_u32 low)

theorem right_inside (low : h ≤ 31) (inside : Inside h (k + 1) p) :
    right (innerIdx (k + 1) p) = node k (2 * p + 1) := by
  have level := inside.level
  exact right_node (by omega) (inside.pos_lt_u32 low)

theorem parent_inside (low : h ≤ 31) (inside : Inside h k p) (below : k < h) :
    parent (node k p) = innerIdx (k + 1) (p / 2) :=
  parent_node (by omega) (inside.pos_lt_u32 low)

theorem sibling_inside (low : h ≤ 31) (inside : Inside h k p) (below : k < h) :
    sibling (node k p) = node k (twin p) :=
  sibling_node (by omega) (inside.pos_lt_u32 low) ((inside.parent below).pos_lt_u32 low)

theorem exists_under_of_inSubtree {top : TreeNodeIndex} (low : h ≤ 31) (sub : InSubtree top index)
    (inside : Inside h k p) (here : top = node k p) : ∃ j q, Under k p j q ∧ index = node j q := by
  induction sub generalizing k p with
  | top => exact ⟨k, p, under_refl k p, here⟩
  | @left idx _ _ ih =>
    cases k with
    | zero =>
      rw [node_zero] at here
      simp at here
    | succ k =>
      rw [node_succ] at here
      obtain rfl := TreeNodeIndex.inner.inj here
      obtain ⟨j, q, under, same⟩ := ih (inside.child (by omega)) (left_inside low inside)
      exact ⟨j, q, (under_succ under.1).mpr (.inl under), same⟩
  | @right idx _ _ ih =>
    cases k with
    | zero =>
      rw [node_zero] at here
      simp at here
    | succ k =>
      rw [node_succ] at here
      obtain rfl := TreeNodeIndex.inner.inj here
      obtain ⟨j, q, under, same⟩ := ih (inside.child (by omega)) (right_inside low inside)
      exact ⟨j, q, (under_succ under.1).mpr (.inr under), same⟩

theorem inSubtree_of_under {j q : Nat} (low : h ≤ 31) (inside : Inside h k p) (under : Under k p j q) :
    InSubtree (node k p) (node j q) := by
  induction k generalizing p with
  | zero =>
    obtain ⟨rfl, rfl⟩ := under_zero.mp under
    exact .top _
  | succ k ih =>
    rcases Nat.lt_or_ge j (k + 1) with lower | same
    · rw [node_succ]
      rcases (under_succ (by omega)).mp under with onLeft | onRight
      · refine .left ?_
        rw [left_inside low inside]
        exact ih (inside.child (by omega)) onLeft
      · refine .right ?_
        rw [right_inside low inside]
        exact ih (inside.child (by omega)) onRight
    · obtain rfl : j = k + 1 := le_antisymm under.1 same
      rw [under.eq_of_level]
      exact .top _

theorem inSubtree_node (low : h ≤ 31) (inside : Inside h k p) :
    InSubtree (node k p) index ↔ ∃ j q, Under k p j q ∧ index = node j q := by
  constructor
  · intro sub
    exact exists_under_of_inSubtree low sub inside rfl
  · rintro ⟨j, q, under, rfl⟩
    exact inSubtree_of_under low inside under

theorem inSubtree_nodes {j q : Nat} (low : h ≤ 31) (inside : Inside h k p) :
    InSubtree (node k p) (node j q) ↔ Under k p j q := by
  rw [inSubtree_node low inside]
  constructor
  · rintro ⟨j', q', under, same⟩
    obtain ⟨rfl, rfl⟩ := node_injective same
    exact under
  · intro under
    exact ⟨j, q, under, rfl⟩

/-! ### Distances -/

/-- The distance of a node from the root, counted downwards. -/
inductive Depth (size : TreeSize) : TreeNodeIndex → Nat → Prop
  | root : Depth size (root size) 0
  | left {idx depth : Nat} : Depth size (.inner idx) depth → Depth size (left idx) (depth + 1)
  | right {idx depth : Nat} : Depth size (.inner idx) depth → Depth size (right idx) (depth + 1)

theorem exists_inside_of_depth {depth : Nat} (low : h ≤ 31) (counted : Depth (.ofHeight h) index depth) :
    ∃ k p, Inside h k p ∧ index = node k p ∧ k + depth = h := by
  induction counted with
  | root => exact ⟨h, 0, inside_root h, root_ofHeight h, rfl⟩
  | left _ ih =>
    obtain ⟨k, p, inside, here, count⟩ := ih
    obtain ⟨k, p, inside', rfl⟩ := contains_inner (here ▸ contains_node inside)
    rw [← node_succ] at here
    obtain ⟨rfl, rfl⟩ := node_injective here
    exact ⟨k, 2 * p, inside.child (by omega), left_inside low inside, by omega⟩
  | right _ ih =>
    obtain ⟨k, p, inside, here, count⟩ := ih
    obtain ⟨k, p, inside', rfl⟩ := contains_inner (here ▸ contains_node inside)
    rw [← node_succ] at here
    obtain ⟨rfl, rfl⟩ := node_injective here
    exact ⟨k, 2 * p + 1, inside.child (by omega), right_inside low inside, by omega⟩

theorem depth_node {depth : Nat} (low : h ≤ 31) (inside : Inside h k p) (count : k + depth = h) :
    Depth (.ofHeight h) (node k p) depth := by
  induction depth generalizing k p with
  | zero =>
    obtain rfl : k = h := count
    rw [inside.eq_zero, ← root_ofHeight]
    exact .root
  | succ depth ih =>
    have upper := inside.parent (by omega)
    have counted := ih upper (by omega)
    rw [node_succ] at counted
    rcases Nat.mod_two_eq_zero_or_one p with even | odd
    · have step := Depth.left counted
      rwa [left_inside low upper, show 2 * (p / 2) = p by omega] at step
    · have step := Depth.right counted
      rwa [right_inside low upper, show 2 * (p / 2) + 1 = p by omega] at step

/-- **The distance of a node from the root** is what its level leaves of the height. -/
theorem depth_node_iff {depth : Nat} (low : h ≤ 31) (inside : Inside h k p) :
    Depth (.ofHeight h) (node k p) depth ↔ depth = h - k := by
  have level := inside.level
  constructor
  · intro counted
    obtain ⟨j, q, -, same, count⟩ := exists_inside_of_depth low counted
    obtain ⟨rfl, rfl⟩ := node_injective same
    omega
  · rintro rfl
    exact depth_node low inside (by omega)

/-! ### The laws -/

/-- **Navigation in a perfect binary tree.** -/
structure PerfectNavigation (size : TreeSize) : Prop where
  parent_left : ∀ idx, size.Contains (.inner idx) → parent (left idx) = idx
  parent_right : ∀ idx, size.Contains (.inner idx) → parent (right idx) = idx
  sibling_left : ∀ idx, size.Contains (.inner idx) → sibling (left idx) = right idx
  sibling_right : ∀ idx, size.Contains (.inner idx) → sibling (right idx) = left idx
  sibling_mem : ∀ index, size.Contains index → index ≠ root size →
    size.Contains (sibling index) ∧ sibling index ≠ root size
  sibling_ne : ∀ index, size.Contains index → index ≠ root size → sibling index ≠ index
  sibling_sibling : ∀ index, size.Contains index → index ≠ root size → sibling (sibling index) = index
  /-- The path ends at the root, stays in the tree and is as long as the way to the root. -/
  directPath : ∀ index, size.Contains index → ∃ path, directPath index size = .ok path ∧
    (index :: path.map .inner).getLast? = some (root size) ∧
    (∀ idx ∈ path, size.Contains (.inner idx)) ∧ ∀ depth, Depth size index depth ↔ depth = path.length
  /-- The common ancestor is what either path first shares with the other. -/
  lowestCommonAncestor : ∀ a b, size.Contains (.leaf a) → size.Contains (.leaf b) → a ≠ b →
    ∃ ofA ofB, Beekem.directPath (.leaf a) size = .ok ofA ∧ Beekem.directPath (.leaf b) size = .ok ofB ∧
      ofA.find? (· ∈ ofB) = some (lowestCommonAncestor a b) ∧
      ofB.find? (· ∈ ofA) = some (lowestCommonAncestor a b)

theorem level_lt_of_ne_root (inside : Inside h k p) (notRoot : node k p ≠ root (.ofHeight h)) : k < h := by
  refine lt_of_le_of_ne inside.level ?_
  rintro rfl
  rw [root_ofHeight, inside.eq_zero] at notRoot
  exact notRoot rfl

theorem twin_twin (p : Nat) : twin (twin p) = p := by
  unfold twin
  omega

theorem getLast?_above (inside : Inside h k p) :
    (node k p :: (above (h - k) k p).map .inner).getLast? = some (node h 0) := by
  obtain ⟨n, rfl⟩ := Nat.exists_eq_add_of_le inside.level
  rw [Nat.add_sub_cancel_left]
  cases n with
  | zero => rw [inside.eq_zero]; rfl
  | succ n =>
    have within := inside.within
    have top : p / 2 ^ (n + 1) = 0 := Nat.div_eq_of_lt (by simpa using within)
    rw [above_succ_last, List.map_append, ← List.cons_append, List.map_singleton, List.getLast?_append, top,
      ← node_succ]
    rfl

theorem mem_above_leaf {n idx leaf : Nat} :
    idx ∈ above n 0 leaf ↔ ∃ d < n, idx = innerIdx (d + 1) (leaf / 2 ^ (d + 1)) := by
  rw [mem_above]
  simp only [Nat.zero_add, Nat.add_comm 1]

/-- **The first node that the path of a leaf shares with that of another.** -/
theorem find?_above {a b : Nat} (first : a < 2 ^ h) (second : b < 2 ^ h) (apart : a ≠ b) :
    (above h 0 a).find? (· ∈ above h 0 b) = some (innerIdx (meet a b) (a / 2 ^ meet a b)) := by
  obtain ⟨m, level⟩ := Nat.exists_eq_succ_of_ne_zero (Nat.ne_of_gt (meet_pos apart))
  have same : a / 2 ^ (m + 1) = b / 2 ^ (m + 1) := meet_le_iff.mp level.le
  have height : m < h := by
    have := (meet_le_iff (a := a) (b := b) (j := h)).mpr (by rw [Nat.div_eq_of_lt first, Nat.div_eq_of_lt second])
    omega
  rw [level, List.find?_eq_some_iff_append]
  refine ⟨?_, _, _, above_split height a, fun idx member => ?_⟩
  · rw [decide_eq_true_iff, mem_above_leaf]
    exact ⟨m, height, by rw [same]⟩
  · obtain ⟨d, lower, rfl⟩ := mem_above_leaf.mp member
    rw [Bool.not_eq_true', decide_eq_false_iff_not, mem_above_leaf]
    rintro ⟨e, -, shared⟩
    obtain ⟨rfl, shared⟩ := innerIdx_injective shared
    have := meet_le_iff.mpr shared
    omega

theorem meet_comm (a b : Nat) : meet a b = meet b a := by rw [meet, meet, Nat.xor_comm]

/-- **The bit arithmetic of the source obeys the laws** in every tree whose size `log2` can take. -/
theorem perfectNavigation (h : Nat) (low : h ≤ 30) : PerfectNavigation (.ofHeight h) := by
  have fits : h ≤ 31 := by omega
  constructor
  case parent_left =>
    intro idx contained
    obtain ⟨k, p, inside, rfl⟩ := contains_inner contained
    rw [left_inside fits inside, parent_inside fits (inside.child (by omega)) inside.level,
      Nat.mul_div_cancel_left p (by omega)]
  case parent_right =>
    intro idx contained
    obtain ⟨k, p, inside, rfl⟩ := contains_inner contained
    rw [right_inside fits inside, parent_inside fits (inside.child (by omega)) inside.level,
      show (2 * p + 1) / 2 = p by omega]
  case sibling_left =>
    intro idx contained
    obtain ⟨k, p, inside, rfl⟩ := contains_inner contained
    rw [left_inside fits inside, right_inside fits inside,
      sibling_inside fits (inside.child (by omega)) inside.level, show twin (2 * p) = 2 * p + 1 by unfold twin; omega]
  case sibling_right =>
    intro idx contained
    obtain ⟨k, p, inside, rfl⟩ := contains_inner contained
    rw [left_inside fits inside, right_inside fits inside,
      sibling_inside fits (inside.child (by omega)) inside.level, show twin (2 * p + 1) = 2 * p by unfold twin; omega]
  case sibling_mem =>
    intro index contained notRoot
    obtain ⟨k, p, inside, rfl⟩ := contains_ofHeight.mp contained
    have below := level_lt_of_ne_root inside notRoot
    rw [sibling_inside fits inside below, root_ofHeight]
    refine ⟨contains_node (inside.twin below), fun same => ?_⟩
    have := (node_injective same).1
    omega
  case sibling_ne =>
    intro index contained notRoot
    obtain ⟨k, p, inside, rfl⟩ := contains_ofHeight.mp contained
    rw [sibling_inside fits inside (level_lt_of_ne_root inside notRoot)]
    exact fun same => twin_ne p (node_injective same).2
  case sibling_sibling =>
    intro index contained notRoot
    obtain ⟨k, p, inside, rfl⟩ := contains_ofHeight.mp contained
    have below := level_lt_of_ne_root inside notRoot
    rw [sibling_inside fits inside below, sibling_inside fits (inside.twin below) below, twin_twin]
  case directPath =>
    intro index contained
    obtain ⟨k, p, inside, rfl⟩ := contains_ofHeight.mp contained
    refine ⟨_, directPath_node fits inside, ?_, fun idx member => ?_, fun depth => ?_⟩
    · rw [getLast?_above inside, root_ofHeight]
    · have small := lt_of_mem_above inside member
      show idx * 2 + 1 < 2 ^ (h + 1) - 1
      rw [pow_succ]
      omega
    · rw [depth_node_iff fits inside, length_above]
  case lowestCommonAncestor =>
    intro a b first second apart
    rw [contains_leaf] at first second
    refine ⟨_, _, directPath_leaf_of_lt fits first, directPath_leaf_of_lt fits second, ?_, ?_⟩
    · rw [find?_above first second apart, lowestCommonAncestor_eq fits first second apart]
    · rw [find?_above second first apart.symm, lowestCommonAncestor_eq fits first second apart, meet_comm b a,
        meet_le_iff.mp (le_refl (meet a b))]

/-- The tree of 2 ^ 30 leaves, the largest that the source can build. -/
theorem perfectNavigation_largest : (30 : Nat) ≤ 30 ∧ PerfectNavigation (.ofHeight 30) :=
  ⟨le_refl 30, perfectNavigation 30 (le_refl 30)⟩

end KeyhiveEval.Beekem
