/-
**The bit arithmetic of `treemath.rs` is that of a perfect binary tree.**

`node k p` is node `p` of level `k`, and a tree of height `h` has the nodes with `k ≤ h` and
`p < 2 ^ (h - k)`. Up to height 31 nothing wraps, and up to height 30 `log2` ends:

* `parent_node`, `left_node`, `right_node`, `sibling_node`, `root_ofHeight` — the neighbours.
* `directPath_node` — the path from a node of the tree is `above`.
* `directPathLoop_outside` — from a node outside the tree the loop of the source never ends: whatever
  number of steps it takes, it has not met the root.
* `lowestCommonAncestor_eq` — where the paths of two leaves meet.
-/

import KeyhiveEval.Beekem.TreeMath
import KeyhiveEval.Lib.PerfectTree

namespace KeyhiveEval.Beekem

open PerfectTree

/-! ### Nodes by level -/

/-- Node `p` of level `k`. -/
def node (k p : Nat) : TreeNodeIndex := .new (pos k p)

/-- The number of node `p` of level `k`, for the levels above the leaves. -/
def innerIdx (k p : Nat) : Nat := (pos k p - 1) / 2

theorem node_zero (p : Nat) : node 0 p = .leaf p := by
  unfold node TreeNodeIndex.new
  rw [pos_zero, if_pos (by omega), Nat.mul_div_cancel_left p (by omega)]

theorem node_succ (k p : Nat) : node (k + 1) p = .inner (innerIdx (k + 1) p) := by
  have odd := pos_succ_odd k p
  unfold node TreeNodeIndex.new innerIdx
  rw [if_neg (by omega)]

theorem position_new (x : Nat) : (TreeNodeIndex.new x).position = x := by
  unfold TreeNodeIndex.new
  split
  · simp only [TreeNodeIndex.position]
    omega
  · simp only [TreeNodeIndex.position]
    omega

theorem position_node (k p : Nat) : (node k p).position = pos k p := position_new _

variable {k p : Nat}

theorem node_injective {k' p' : Nat} (same : node k p = node k' p') : k = k' ∧ p = p' := by
  refine pos_injective ?_
  rw [← position_node, ← position_node, same]

theorem innerIdx_injective {k' p' : Nat} (same : innerIdx (k + 1) p = innerIdx (k' + 1) p') :
    k = k' ∧ p = p' := by
  have nodes : node (k + 1) p = node (k' + 1) p' := by rw [node_succ, node_succ, same]
  have := node_injective nodes
  omega

theorem u32_node (small : pos k p < 2 ^ 32) : (node k p).u32 = pos k p := by
  unfold TreeNodeIndex.u32 u32Size
  rw [position_node, Nat.mod_eq_of_lt small]

/-- Whether node `p` of level `k` is in the tree of height `h`. -/
structure Inside (h k p : Nat) : Prop where
  level : k ≤ h
  within : p < 2 ^ (h - k)

variable {h : Nat}

theorem Inside.pos_lt (inside : Inside h k p) : pos k p < 2 ^ (h + 1) :=
  (pos_lt_iff inside.level).mpr inside.within

theorem Inside.pos_lt_u32 (inside : Inside h k p) (low : h ≤ 31) :
    pos k p < 2 ^ 32 :=
  lt_of_lt_of_le inside.pos_lt (Nat.pow_le_pow_right (by omega) (by omega))

theorem Inside.parent (inside : Inside h k p) (below : k < h) :
    Inside h (k + 1) (p / 2) := by
  refine ⟨below, ?_⟩
  have within := inside.within
  rw [show h - k = h - (k + 1) + 1 by omega, pow_succ] at within
  omega

theorem Inside.child (inside : Inside h (k + 1) p) {q : Nat} (child : q / 2 = p) :
    Inside h k q := by
  have level := inside.level
  refine ⟨by omega, ?_⟩
  have within := inside.within
  rw [show h - k = h - (k + 1) + 1 by omega, pow_succ]
  omega

theorem Inside.of_under {j q : Nat} (inside : Inside h k p) (under : Under k p j q) :
    Inside h j q := by
  obtain ⟨level, same⟩ := under
  have top := inside.level
  have within := inside.within
  refine ⟨by omega, ?_⟩
  rw [show h - j = h - k + (k - j) by omega, pow_add]
  rw [← same] at within
  exact (Nat.div_lt_iff_lt_mul (Nat.two_pow_pos _)).mp within

variable {idx : Nat}

theorem inside_leaf : Inside h 0 idx ↔ idx < 2 ^ h :=
  ⟨fun inside => inside.within, fun within => ⟨Nat.zero_le h, within⟩⟩

theorem inside_root (h : Nat) : Inside h h 0 := ⟨le_refl h, by simp⟩

theorem Inside.eq_zero (inside : Inside h h p) : p = 0 := by
  have := inside.within
  simpa using this

theorem inside_iff_pos_lt : Inside h k p ↔ pos k p < 2 ^ (h + 1) - 1 := by
  have root : pos (h + 1) 0 = 2 ^ (h + 1) - 1 := by simp [pos]
  have := Nat.two_pow_pos (h + 1)
  constructor
  · intro inside
    have small := inside.pos_lt
    have last : pos k p ≠ 2 ^ (h + 1) - 1 := by
      intro same
      have := (pos_injective (same.trans root.symm)).1
      have := inside.level
      omega
    omega
  · intro small
    have level : k ≤ h := by
      have high := level_le_of_pos_lt (show pos k p < 2 ^ (h + 1) by omega)
      rcases Nat.eq_or_lt_of_le high with top | below
      · unfold pos at small
        rw [top] at small
        omega
      · omega
    exact ⟨level, (pos_lt_iff level).mp (by omega)⟩

theorem Inside.innerIdx_lt (inside : Inside h (k + 1) p) :
    innerIdx (k + 1) p < 2 ^ h - 1 := by
  have small := inside_iff_pos_lt.mp inside
  have odd := pos_succ_odd k p
  unfold innerIdx
  rw [pow_succ] at small
  omega

/-! ### Levels -/

theorem pos_succ_div_two (k p : Nat) : pos (k + 1) p / 2 = pos k p := by
  have := Nat.two_pow_pos k
  unfold pos
  rw [pow_succ 2 (k + 1), pow_succ 2 k]
  have : 2 ^ k * 2 * 2 * p = 2 * (2 ^ k * 2 * p) := by ring
  omega

theorem trailingOnes_pos {fuel : Nat} (enough : k < fuel) (p : Nat) :
    trailingOnes fuel (pos k p) = k := by
  induction k generalizing fuel with
  | zero =>
    obtain ⟨fuel, rfl⟩ := Nat.exists_eq_succ_of_ne_zero (Nat.ne_of_gt enough)
    rw [trailingOnes, pos_zero, if_pos (by omega)]
  | succ k ih =>
    obtain ⟨fuel, rfl⟩ := Nat.exists_eq_succ_of_ne_zero (Nat.ne_of_gt (Nat.zero_lt_of_lt enough))
    have odd := pos_succ_odd k p
    rw [trailingOnes, if_neg (by omega), pos_succ_div_two, ih (by omega)]

theorem level_pos (low : k < 32) (p : Nat) : level (pos k p) = k := trailingOnes_pos low p

/-! ### Neighbours -/

theorem shl_one (low : k < 32) : shl 1 k = 2 ^ k := by
  unfold shl u32Size
  rw [Nat.mod_eq_of_lt low, Nat.one_shiftLeft]
  exact Nat.mod_eq_of_lt (Nat.pow_lt_pow_right (by omega) low)

theorem parent_node (low : k ≤ 30) (small : pos k p < 2 ^ 32) :
    parent (node k p) = innerIdx (k + 1) (p / 2) := by
  have bit : pos k p >>> (k + 1) &&& 1 < 2 := by
    rw [Nat.and_one_is_mod]
    omega
  have fits : (pos k p >>> (k + 1) &&& 1) <<< (k + 1) < 2 ^ 32 := by
    have : 2 ^ (k + 1) ≤ 2 ^ 31 := Nat.pow_le_pow_right (by omega) (by omega)
    rw [Nat.shiftLeft_eq]
    calc _ ≤ 1 * 2 ^ (k + 1) := Nat.mul_le_mul_right _ (by omega)
      _ < 2 ^ 32 := by omega
  unfold parent innerIdx
  simp only [u32_node small, level_pos (show k < 32 by omega), shl_one (show k < 32 by omega)]
  unfold shr shl u32Size
  rw [Nat.mod_eq_of_lt (show k + 1 < 32 by omega), Nat.mod_eq_of_lt fits, parent_pos]

theorem left_node (low : k ≤ 30) (small : pos (k + 1) p < 2 ^ 32) :
    left (innerIdx (k + 1) p) = node k (2 * p) := by
  unfold left
  simp only [← node_succ, u32_node small, level_pos (show k + 1 < 32 by omega),
    Nat.add_sub_cancel, shl_one (show k < 32 by omega), left_pos]
  rfl

theorem right_node (low : k ≤ 30) (small : pos (k + 1) p < 2 ^ 32) :
    right (innerIdx (k + 1) p) = node k (2 * p + 1) := by
  have three : shl 3 k = 3 * 2 ^ k := by
    have : 2 ^ k ≤ 2 ^ 30 := Nat.pow_le_pow_right (by omega) low
    unfold shl u32Size
    rw [Nat.mod_eq_of_lt (show k < 32 by omega), Nat.shiftLeft_eq, Nat.mod_eq_of_lt (by omega)]
  unfold right
  simp only [← node_succ, u32_node small, level_pos (show k + 1 < 32 by omega),
    Nat.add_sub_cancel, three, right_pos]
  rfl

/-- The number of the other child of a node's parent. -/
def twin (p : Nat) : Nat := 2 * (p / 2) + (1 - p % 2)

theorem twin_ne (p : Nat) : twin p ≠ p := by
  unfold twin
  omega

theorem Inside.twin (inside : Inside h k p) (below : k < h) :
    Inside h k (twin p) := by
  refine ⟨inside.level, ?_⟩
  have within := inside.within
  obtain ⟨d, gap⟩ : ∃ d, h - k = d + 1 := ⟨h - k - 1, by omega⟩
  rw [gap, pow_succ] at within ⊢
  unfold KeyhiveEval.Beekem.twin
  omega

theorem sibling_node (low : k ≤ 30) (small : pos k p < 2 ^ 32)
    (smallUp : pos (k + 1) (p / 2) < 2 ^ 32) : sibling (node k p) = node k (twin p) := by
  have position : pos k p < pos (k + 1) (p / 2) ↔ p % 2 = 0 := by
    have := Nat.two_pow_pos k
    have split : 2 ^ k * 2 * p = 2 ^ k * 2 * 2 * (p / 2) + 2 ^ k * 2 * (p % 2) := by
      conv_lhs => rw [← Nat.div_add_mod p 2]
      ring
    unfold pos
    rw [pow_succ 2 (k + 1), pow_succ 2 k, split]
    rcases Nat.mod_two_eq_zero_or_one p with even | odd
    · rw [even]
      omega
    · rw [odd]
      omega
  unfold sibling
  simp only [parent_node low small, u32_node small, ← node_succ, u32_node smallUp, position]
  unfold twin
  split
  · rename_i even
    rw [right_node low smallUp, even]
  · rename_i odd
    rw [left_node low smallUp, show p % 2 = 1 by omega]
    simp

/-! ### Sizes -/

def TreeSize.ofHeight (h : Nat) : TreeSize := ⟨2 ^ (h + 1) - 1⟩

theorem leafCount_ofHeight (h : Nat) : (TreeSize.ofHeight h).leafCount = 2 ^ h := by
  have := Nat.two_pow_pos h
  unfold TreeSize.ofHeight TreeSize.leafCount
  rw [pow_succ]
  simp only
  omega

theorem innerNodeCount_ofHeight (h : Nat) : (TreeSize.ofHeight h).innerNodeCount = 2 ^ h - 1 := by
  have := Nat.two_pow_pos h
  unfold TreeSize.ofHeight TreeSize.innerNodeCount
  rw [pow_succ]
  simp only
  omega

theorem inc_ofHeight (h : Nat) : (TreeSize.ofHeight h).inc = .ofHeight (h + 1) := by
  have := Nat.two_pow_pos h
  unfold TreeSize.ofHeight TreeSize.inc
  rw [pow_succ 2 (h + 1), pow_succ 2 h]
  simp only [TreeSize.mk.injEq]
  omega

theorem root_ofHeight (h : Nat) : root (.ofHeight h) = node h 0 := by
  have exponent : Nat.log2 (2 ^ (h + 1) - 1) = h := by
    have := Nat.two_pow_pos h
    rw [Nat.log2_eq_iff (by rw [pow_succ]; omega), pow_succ]
    omega
  unfold root log2 node
  rw [show (TreeSize.ofHeight h).nodes = 2 ^ (h + 1) - 1 from rfl, exponent]
  simp [pos]

/-! ### Paths -/

/-- The `n` inner nodes above node `p` of level `k`. -/
def above : Nat → Nat → Nat → List Nat
  | 0, _, _ => []
  | n + 1, k, p => innerIdx (k + 1) (p / 2) :: above n (k + 1) (p / 2)

theorem length_above (n k p : Nat) : (above n k p).length = n := by
  induction n generalizing k p with
  | zero => rfl
  | succ n ih => rw [above, List.length_cons, ih]

theorem mem_above {n : Nat} :
    idx ∈ above n k p ↔ ∃ d < n, idx = innerIdx (k + 1 + d) (p / 2 ^ (d + 1)) := by
  induction n generalizing k p with
  | zero => simp [above]
  | succ n ih =>
    rw [above, List.mem_cons, ih]
    constructor
    · rintro (rfl | ⟨d, small, rfl⟩)
      · exact ⟨0, by omega, by simp⟩
      · refine ⟨d + 1, by omega, ?_⟩
        rw [Nat.div_div_eq_div_mul, ← pow_succ', show k + 1 + 1 + d = k + 1 + (d + 1) by omega]
    · rintro ⟨d, small, rfl⟩
      cases d with
      | zero => exact .inl (by simp)
      | succ d =>
        refine .inr ⟨d, by omega, ?_⟩
        rw [Nat.div_div_eq_div_mul, ← pow_succ', show k + 1 + 1 + d = k + 1 + (d + 1) by omega]

theorem above_add (m n k p : Nat) : above (m + n) k p = above m k p ++ above n (k + m) (p / 2 ^ m) := by
  induction m generalizing k p with
  | zero => simp [above]
  | succ m ih =>
    rw [show m + 1 + n = m + n + 1 by omega, above, above, ih, List.cons_append, Nat.div_div_eq_div_mul,
      ← pow_succ', show k + 1 + m = k + (m + 1) by omega]

theorem above_succ_last (n k p : Nat) :
    above (n + 1) k p = above n k p ++ [innerIdx (k + n + 1) (p / 2 ^ (n + 1))] := by
  rw [above_add, above, above, Nat.div_div_eq_div_mul, ← pow_succ]

theorem above_split {m : Nat} (inTree : m < h) (p : Nat) :
    above h 0 p = above m 0 p
      ++ innerIdx (m + 1) (p / 2 ^ (m + 1)) :: above (h - (m + 1)) (m + 1) (p / 2 ^ (m + 1)) := by
  conv_lhs => rw [show h = m + (h - (m + 1) + 1) by omega, above_add, above]
  rw [Nat.zero_add, Nat.div_div_eq_div_mul, ← pow_succ]

theorem innerIdx_not_mem_above {n : Nat} : innerIdx (k + 1) p ∉ above n (k + 1) p := by
  intro member
  obtain ⟨d, -, same⟩ := mem_above.mp member
  rw [show k + 1 + 1 + d = k + 1 + d + 1 by omega] at same
  have := (innerIdx_injective same).1
  omega

theorem nodup_above (n k p : Nat) : (above n k p).Nodup := by
  induction n generalizing k p with
  | zero => exact List.nodup_nil
  | succ n ih =>
    rw [above, List.nodup_cons]
    exact ⟨innerIdx_not_mem_above, ih _ _⟩

theorem lt_of_mem_above (inside : Inside h k p) (member : idx ∈ above (h - k) k p) :
    idx < 2 ^ h - 1 := by
  obtain ⟨d, small, rfl⟩ := mem_above.mp member
  rw [show k + 1 + d = k + d + 1 by omega]
  refine Inside.innerIdx_lt ⟨by omega, ?_⟩
  have within := inside.within
  rw [show h - k = h - (k + d + 1) + (d + 1) by omega, pow_add] at within
  exact (Nat.div_lt_iff_lt_mul (Nat.two_pow_pos _)).mpr within

theorem directPathLoop_node {fuel : Nat} (low : h ≤ 31) (inside : Inside h k p)
    (enough : h - k < fuel) (d : List Nat) :
    directPathLoop (pos h 0) fuel (pos k p) d = .ok (d ++ above (h - k) k p) := by
  induction fuel generalizing k p d with
  | zero => omega
  | succ fuel ih =>
    unfold directPathLoop
    rcases Nat.eq_or_lt_of_le inside.level with rfl | below
    · rw [inside.eq_zero, if_pos rfl, Nat.sub_self, above, List.append_nil]
    · have notRoot : pos k p ≠ pos h 0 := fun same => by
        have := (pos_injective same).1
        omega
      have upper := inside.parent below
      have up := parent_node (show k ≤ 30 by omega) (inside.pos_lt_u32 low)
      unfold node at up
      rw [if_neg notRoot]
      simp only [up, ← node_succ, u32_node (upper.pos_lt_u32 low)]
      rw [ih upper (by omega), show h - k = h - (k + 1) + 1 by omega, above, List.append_assoc]
      rfl

theorem directPath_node (low : h ≤ 31) (inside : Inside h k p) :
    directPath (node k p) (.ofHeight h) = .ok (above (h - k) k p) := by
  unfold directPath walkFuel
  rw [root_ofHeight, u32_node (inside.pos_lt_u32 low), u32_node ((inside_root h).pos_lt_u32 low),
    directPathLoop_node low inside (by omega), List.nil_append]

theorem climb_outside {x : Nat} (low : h ≤ 30) (small : x < 2 ^ 32)
    (outside : 2 ^ (h + 1) - 1 ≤ x) :
    2 ^ (h + 1) - 1 ≤ (TreeNodeIndex.inner (parent (.new x))).u32 := by
  obtain ⟨k, p, rfl⟩ := exists_pos x
  have levels : k ≤ 32 := level_le_of_pos_lt (h := 31) small
  have bound : 2 ^ (h + 1) ≤ 2 ^ 31 := Nat.pow_le_pow_right (by omega) (by omega)
  rcases Nat.lt_or_ge k 31 with inner | top
  · have up := parent_node (show k ≤ 30 by omega) small
    have smallUp : pos (k + 1) (p / 2) < 2 ^ 32 := by
      rw [pos_lt_iff (h := 31) (by omega)] at small ⊢
      rw [show 31 - k = 31 - (k + 1) + 1 by omega, pow_succ] at small
      omega
    unfold node at up
    rw [up, ← node_succ, u32_node smallUp]
    rcases Nat.lt_or_ge k h with below | reached
    · have beyond : ¬ p < 2 ^ (h - k) := by
        intro within
        have := (pos_lt_iff (h := h) below.le).mpr within
        have last : pos (h + 1) 0 = 2 ^ (h + 1) - 1 := by simp [pos]
        have same : pos k p = pos (h + 1) 0 := by omega
        have := (pos_injective same).1
        omega
      have : ¬ pos (k + 1) (p / 2) < 2 ^ (h + 1) := by
        rw [pos_lt_iff (by omega)]
        rw [show h - k = h - (k + 1) + 1 by omega, pow_succ] at beyond
        omega
      omega
    · have : 2 ^ (h + 1) ≤ 2 ^ (k + 1) := Nat.pow_le_pow_right (by omega) (by omega)
      unfold pos
      omega
  · have single : p = 0 := by
      have := Nat.two_pow_pos k
      have : 2 ^ 32 ≤ 2 ^ (k + 1) := Nat.pow_le_pow_right (by omega) (by omega)
      by_contra positive
      have := Nat.mul_le_mul this (Nat.one_le_iff_ne_zero.mpr positive)
      unfold pos at small
      omega
    subst single
    -- The two positions above level 30 are computed.
    have jump : (TreeNodeIndex.inner (parent (.new (pos k 0)))).u32 = 2 ^ 32 - 3 := by
      interval_cases k <;> decide
    rw [jump]
    omega

/-- **From outside the tree the walk never meets the root**, however many steps it takes. -/
theorem directPathLoop_outside {x : Nat} (low : h ≤ 30) (small : x < 2 ^ 32)
    (outside : 2 ^ (h + 1) - 1 ≤ x) (fuel : Nat) (d : List Nat) :
    directPathLoop (pos h 0) fuel x d = .error .diverge := by
  induction fuel generalizing x d with
  | zero => rfl
  | succ fuel ih =>
    have notRoot : x ≠ pos h 0 := by
      have := Nat.two_pow_pos h
      rw [pow_succ] at outside
      unfold pos
      omega
    unfold directPathLoop
    rw [if_neg notRoot]
    exact ih (Nat.mod_lt _ (by decide)) (climb_outside low small outside) _

theorem u32_leaf (idx : Nat) : (TreeNodeIndex.leaf idx).u32 = 2 * (idx % 2 ^ 31) := by
  show idx * 2 % 2 ^ 32 = _
  omega

/-- **The path of a leaf**, for every number that the source may be given. -/
theorem directPath_leaf (low : h ≤ 30) (idx : Nat) :
    directPath (.leaf idx) (.ofHeight h)
      = if idx % 2 ^ 31 < 2 ^ h then .ok (above h 0 (idx % 2 ^ 31)) else .error .diverge := by
  have start : (TreeNodeIndex.leaf idx).u32 = pos 0 (idx % 2 ^ 31) := by
    rw [u32_leaf, pos_zero]
  unfold directPath
  rw [root_ofHeight, u32_node ((inside_root h).pos_lt_u32 (by omega)), start]
  split
  · rename_i within
    rw [directPathLoop_node (by omega) (inside_leaf.mpr within) (by unfold walkFuel; omega)]
    rfl
  · rename_i beyond
    refine directPathLoop_outside low ?_ ?_ _ _
    · rw [pos_zero]
      omega
    · rw [pos_zero, pow_succ]
      omega

theorem directPath_leaf_of_lt (low : h ≤ 31) (within : idx < 2 ^ h) :
    directPath (.leaf idx) (.ofHeight h) = .ok (above h 0 idx) := by
  have := directPath_node low (inside_leaf.mpr within)
  rwa [node_zero] at this

/-! ### Where two paths meet -/

theorem commonAncestorLoop_eq {x y fuel : Nat} (before : k ≤ meet x y)
    (enough : meet x y ≤ k + fuel) :
    commonAncestorLoop fuel (x >>> k) (y >>> k) k = (x >>> meet x y, meet x y) := by
  induction fuel generalizing k with
  | zero =>
    rw [show k = meet x y by omega]
    rfl
  | succ fuel ih =>
    have stop : x >>> k = y >>> k ↔ meet x y ≤ k := by
      rw [meet_le_iff, Nat.shiftRight_eq_div_pow, Nat.shiftRight_eq_div_pow]
    unfold commonAncestorLoop
    by_cases same : x >>> k = y >>> k
    · rw [if_pos same, show k = meet x y from le_antisymm before (stop.mp same)]
    · have := mt stop.mpr same
      rw [if_neg same, ← Nat.shiftRight_add, ← Nat.shiftRight_add]
      exact ih (by omega) (by omega)

theorem meet_two_mul {a b : Nat} (apart : a ≠ b) : meet (2 * a) (2 * b) = meet a b + 1 := by
  have up : ∀ j, meet (2 * a) (2 * b) ≤ j + 1 ↔ meet a b ≤ j := by
    intro j
    rw [meet_le_iff, meet_le_iff, pow_succ', ← Nat.div_div_eq_div_mul, ← Nat.div_div_eq_div_mul,
      Nat.mul_div_cancel_left a (by omega), Nat.mul_div_cancel_left b (by omega)]
  have positive := meet_pos (show 2 * a ≠ 2 * b by omega)
  have first := up (meet (2 * a) (2 * b) - 1)
  have second := up (meet a b)
  omega

/-- **The node where the paths of two leaves meet.** -/
theorem lowestCommonAncestor_eq {a b : Nat} (low : h ≤ 31) (first : a < 2 ^ h) (second : b < 2 ^ h)
    (apart : a ≠ b) : lowestCommonAncestor a b = innerIdx (meet a b) (a / 2 ^ meet a b) := by
  have bound : 2 ^ h ≤ 2 ^ 31 := Nat.pow_le_pow_right (by omega) low
  have height : meet a b ≤ h := by
    rw [meet_le_iff, Nat.div_eq_of_lt first, Nat.div_eq_of_lt second]
  have levels : ∀ idx < 2 ^ 31, level (2 * idx) = 0 := fun idx _ => by
    rw [← pos_zero, level_pos (by omega)]
  have distinct : ¬ shr (2 * a) 1 = shr (2 * b) 1 := by
    unfold shr
    rw [show 1 % 32 = 1 from rfl, Nat.shiftRight_eq_div_pow, Nat.shiftRight_eq_div_pow]
    omega
  unfold lowestCommonAncestor
  simp only [u32_leaf, Nat.mod_eq_of_lt (show a < 2 ^ 31 by omega),
    Nat.mod_eq_of_lt (show b < 2 ^ 31 by omega), levels a (by omega), levels b (by omega),
    Nat.zero_add, distinct, and_false, if_false]
  have enough : meet (2 * a) (2 * b) ≤ 0 + 32 := by
    rw [meet_two_mul apart]
    omega
  have loop := commonAncestorLoop_eq (Nat.zero_le _) enough
  rw [Nat.shiftRight_zero, Nat.shiftRight_zero, meet_two_mul apart] at loop
  rw [loop]
  have shifted : (2 * a) >>> (meet a b + 1) = a / 2 ^ meet a b := by
    rw [Nat.shiftRight_eq_div_pow, pow_succ', ← Nat.div_div_eq_div_mul,
      Nat.mul_div_cancel_left a (by omega)]
  -- Where the paths only meet at level 31 the count is 32 and the shift does nothing, but to a zero.
  have shiftedBack : shl (a / 2 ^ meet a b) (meet a b + 1) = 2 ^ (meet a b + 1) * (a / 2 ^ meet a b) := by
    rcases Nat.lt_or_ge (meet a b) 31 with inner | top
    · have fits : a / 2 ^ meet a b * 2 ^ (meet a b + 1) < 2 ^ 32 := by
        have := Nat.div_mul_le_self a (2 ^ meet a b)
        rw [pow_succ, ← Nat.mul_assoc]
        omega
      unfold shl u32Size
      rw [Nat.mod_eq_of_lt (show meet a b + 1 < 32 by omega), Nat.shiftLeft_eq, Nat.mod_eq_of_lt fits,
        Nat.mul_comm]
    · have zero : a / 2 ^ meet a b = 0 := Nat.div_eq_of_lt (lt_of_lt_of_le first
        (Nat.pow_le_pow_right (by omega) (by omega)))
      simp [zero, shl]
  have := Nat.two_pow_pos (meet a b)
  simp only [shifted, Nat.add_sub_cancel]
  rw [shl_one (show meet a b < 32 by omega), shiftedBack, innerIdx, pos]
  congr 1
  omega

end KeyhiveEval.Beekem
