/-
**The shape of the tree, and what each operation does to it.**

`Shaped tree h` says that the vectors of the tree are those of a perfect tree of height `h`. Every
operation keeps it, and on a shaped tree the loops of the source end:

* `blankPath_eq`, `blankLeafAndPath_eq`, `pushLeaf_eq` — what the operations that cannot fail
  leave, written out. A push fails only when the tree has `2 ^ 30` leaves.
* `Shaped.pushed`, `Shaped.grown`, `Shaped.withBlanked` — the trees they leave are shaped.
-/

import KeyhiveEval.Beekem.Tree
import KeyhiveEval.Beekem.TreeWalk
import KeyhiveEval.Lib.Stateful

namespace KeyhiveEval.Beekem

open Std PerfectTree Stateful

namespace BeeKem

/-! ### Shapes -/

/-- The vectors are those of a perfect tree of height `h`. -/
structure Shaped (tree : BeeKem) (h : Nat) : Prop where
  positive : 1 ≤ h
  low : h ≤ 30
  size : tree.treeSize = .ofHeight h
  leaves : tree.leaves.length = 2 ^ h
  inner : tree.innerNodes.length = 2 ^ h - 1
  next : tree.nextLeafIdx ≤ 2 ^ h
  index : ∀ (id : MemberId) (idx : Nat), tree.idToLeafIdx[id]? = some idx → idx < 2 ^ h

variable {tree : BeeKem} {h : Nat}

theorem Shaped.isRoot_node {k p : Nat} (shaped : tree.Shaped h)
    (inside : Inside h k p) : tree.isRoot (node k p) = decide (k = h) := by
  unfold isRoot
  rw [shaped.size, root_ofHeight, beq_eq_decide, decide_eq_decide]
  constructor
  · intro same
    exact (node_injective same).1
  · rintro rfl
    rw [inside.eq_zero]

variable {idx : Nat}

theorem Shaped.leaf_eq (shaped : tree.Shaped h)
    (within : idx < 2 ^ h) : ∃ found, tree.leaves[idx]? = some found ∧ tree.leaf idx = .ok found := by
  have bound : idx < tree.leaves.length := by rw [shaped.leaves]; exact within
  refine ⟨tree.leaves[idx], List.getElem?_eq_getElem bound, ?_⟩
  unfold leaf
  rw [List.getElem?_eq_getElem bound]

theorem leaf_ok_iff {found : Option LeafNode} :
    tree.leaf idx = .ok found ↔ tree.leaves[idx]? = some found := by
  unfold leaf
  cases tree.leaves[idx]? <;> simp

theorem innerNode_ok_iff {found : Option InnerNode} :
    tree.innerNode idx = .ok found ↔ tree.innerNodes[idx]? = some found := by
  unfold innerNode
  cases tree.innerNodes[idx]? <;> simp

/-! ### Blanking -/

def blankAll (idxs : List Nat) (nodes : List (Option InnerNode)) : List (Option InnerNode) :=
  idxs.foldl (fun nodes idx => nodes.set idx none) nodes

theorem length_blankAll (idxs : List Nat) (nodes : List (Option InnerNode)) :
    (blankAll idxs nodes).length = nodes.length := by
  induction idxs generalizing nodes with
  | nil => rfl
  | cons idx idxs ih => exact (ih _).trans List.length_set

theorem getElem?_blankAll (idxs : List Nat) (nodes : List (Option InnerNode)) (j : Nat) :
    (blankAll idxs nodes)[j]?
      = if j ∈ idxs ∧ j < nodes.length then some none else nodes[j]? := by
  induction idxs generalizing nodes with
  | nil => simp [blankAll]
  | cons idx idxs ih =>
    show (blankAll idxs (nodes.set idx none))[j]? = _
    rw [ih, List.length_set, List.getElem?_set]
    by_cases here : idx = j
    · subst here
      by_cases bound : idx < nodes.length
      · simp [bound]
      · simp [bound]
    · simp [here, Ne.symm here]

structure Blanker (nodes nodes' : List (Option InnerNode)) : Prop where
  length : nodes'.length = nodes.length
  keeps : ∀ j : Nat, nodes'[j]? = nodes[j]? ∨ nodes'[j]? = some none

theorem Blanker.refl (nodes : List (Option InnerNode)) : Blanker nodes nodes :=
  ⟨rfl, fun _ => .inl rfl⟩

theorem Blanker.trans {first second third : List (Option InnerNode)} (once : Blanker first second)
    (again : Blanker second third) : Blanker first third := by
  refine ⟨again.length.trans once.length, fun j => ?_⟩
  rcases again.keeps j with same | blank
  · rw [same]
    exact once.keeps j
  · exact .inr blank

theorem blanker_blankAll (idxs : List Nat) (nodes : List (Option InnerNode)) :
    Blanker nodes (blankAll idxs nodes) := by
  refine ⟨length_blankAll idxs nodes, fun j => ?_⟩
  rw [getElem?_blankAll]
  split
  · exact .inr rfl
  · exact .inl rfl

theorem Blanker.blank {nodes nodes' : List (Option InnerNode)} (blanker : Blanker nodes nodes')
    {j : Nat} (blank : nodes[j]? = some none) : nodes'[j]? = some none := by
  rcases blanker.keeps j with same | now
  · rw [same, blank]
  · exact now

/-- The tree with the given nodes blanked, which then has no encrypter. -/
def withBlanked (tree : BeeKem) (idxs : List Nat) : BeeKem :=
  { tree with
    innerNodes := blankAll idxs tree.innerNodes
    currentSecretEncrypterLeafIdx := none }

theorem Shaped.withBlanked (shaped : tree.Shaped h) (idxs : List Nat) :
    (tree.withBlanked idxs).Shaped h :=
  { shaped with inner := (length_blankAll _ _).trans shaped.inner }

theorem Shaped.blankInnerNode_eq (shaped : tree.Shaped h)
    (within : idx < 2 ^ h - 1) :
    tree.blankInnerNode idx = .ok { tree with innerNodes := tree.innerNodes.set idx none } := by
  unfold blankInnerNode
  rw [if_pos (by rw [shaped.inner]; exact within)]

theorem blankPathLoop_eq {k p fuel : Nat} (shaped : tree.Shaped h)
    (inside : Inside h k p) (below : k < h) (enough : h - k ≤ fuel) :
    blankPathLoop fuel tree (innerIdx (k + 1) (p / 2))
      = .ok (tree.withBlanked (above (h - k) k p)) := by
  induction fuel generalizing tree k p with
  | zero => omega
  | succ fuel ih =>
    have upper := inside.parent below
    have shaped' : ({ tree with
        innerNodes := tree.innerNodes.set (innerIdx (k + 1) (p / 2)) none } : BeeKem).Shaped h :=
      { shaped with inner := List.length_set.trans shaped.inner }
    unfold blankPathLoop
    rw [shaped.blankInnerNode_eq upper.innerIdx_lt, ← node_succ, shaped.isRoot_node upper]
    simp only [bind, Except.bind]
    rcases Nat.eq_or_lt_of_le upper.level with root | inner
    · rw [decide_eq_true root, if_pos rfl, show h - k = 1 by omega]
      rfl
    · rw [decide_eq_false inner.ne, if_neg (by simp),
        parent_node (show k + 1 ≤ 30 by have := shaped.low; omega)
          (upper.pos_lt_u32 (shaped.low.trans (by decide))),
        ih shaped' upper inner (by omega), show h - k = h - (k + 1) + 1 by omega, above]
      rfl

theorem Shaped.blankPath_eq {k p : Nat} (shaped : tree.Shaped h)
    (inside : Inside h k p) (below : k < h) :
    tree.blankPath (parent (node k p)) = .ok (tree.withBlanked (above (h - k) k p)) := by
  have low := shaped.low
  unfold blankPath walkFuel
  rw [parent_node (by omega) (inside.pos_lt_u32 (by omega))]
  exact blankPathLoop_eq shaped inside below (by omega)

theorem Shaped.blankPath_leaf (shaped : tree.Shaped h)
    (within : idx < 2 ^ h) :
    tree.blankPath (parent (.leaf idx)) = .ok (tree.withBlanked (above h 0 idx)) := by
  rw [← node_zero]
  exact shaped.blankPath_eq (inside_leaf.mpr within) shaped.positive

def withBlankedLeaf (tree : BeeKem) (h idx : Nat) : BeeKem :=
  { tree with leaves := tree.leaves.set idx none }.withBlanked (above h 0 idx)

theorem Shaped.withBlankedLeaf (shaped : tree.Shaped h) (idx : Nat) :
    (tree.withBlankedLeaf h idx).Shaped h := by
  have shaped' : ({ tree with leaves := tree.leaves.set idx none } : BeeKem).Shaped h :=
    { shaped with leaves := List.length_set.trans shaped.leaves }
  exact shaped'.withBlanked _

/-- **Blanking a leaf and its path**: the source panics on a leaf outside the tree. -/
theorem Shaped.blankLeafAndPath_eq (shaped : tree.Shaped h) (idx : Nat) :
    tree.blankLeafAndPath idx
      = if idx < 2 ^ h then .ok (tree.withBlankedLeaf h idx)
        else .error (.panic "index out of bounds") := by
  have shaped' : ({ tree with leaves := tree.leaves.set idx none } : BeeKem).Shaped h :=
    { shaped with leaves := List.length_set.trans shaped.leaves }
  unfold blankLeafAndPath blankLeaf
  rw [shaped.leaves]
  split
  · rename_i within
    exact shaped'.blankPath_leaf within
  · rfl

/-! ### Growing and pushing -/

theorem takeD_eq_append {α : Type} {n : Nat} {items : List α} {fill : α}
    (short : items.length ≤ n) :
    items.takeD n fill = items ++ List.replicate (n - items.length) fill := by
  induction n generalizing items with
  | zero =>
    rw [List.eq_nil_of_length_eq_zero (Nat.le_zero.mp short)]
    rfl
  | succ n ih =>
    cases items with
    | nil => simp [List.replicate_succ]
    | cons item items =>
      rw [List.takeD_succ, List.tail_cons, ih (by simpa using short)]
      simp

def pushHeight (tree : BeeKem) (h : Nat) : Nat := if tree.nextLeafIdx < 2 ^ h then h else h + 1

def grown (tree : BeeKem) (h : Nat) : BeeKem :=
  if tree.nextLeafIdx < 2 ^ h then tree
  else
    { tree with
      treeSize := .ofHeight (h + 1)
      leaves := tree.leaves ++ List.replicate (2 ^ h) none
      innerNodes := tree.innerNodes ++ List.replicate (2 ^ h) none }

theorem fromLeafCount_eq {count : Nat} (room : count < 2 ^ 30) :
    TreeSize.fromLeafCount count = .ok ⟨2 ^ (Nat.log2 (count * 2) + 1) - 1⟩ := by
  unfold TreeSize.fromLeafCount TreeSize.new u32Size log2
  rw [Nat.mod_eq_of_lt (by omega), if_pos (by omega)]

theorem Shaped.maybeGrowTree_eq (shaped : tree.Shaped h)
    (room : tree.nextLeafIdx < 2 ^ 30) :
    tree.maybeGrowTree tree.nextLeafIdx = .ok (tree.grown h) := by
  have fits : 2 ^ (Nat.log2 (tree.nextLeafIdx * 2) + 1) - 1 ≤ 2 ^ (h + 1) - 1
      ↔ tree.nextLeafIdx < 2 ^ h := by
    have powers : 2 ^ (Nat.log2 (tree.nextLeafIdx * 2) + 1) ≤ 2 ^ (h + 1)
        ↔ Nat.log2 (tree.nextLeafIdx * 2) < h + 1 := by
      rw [Nat.pow_le_pow_iff_right (by omega)]
      omega
    have := Nat.two_pow_pos (Nat.log2 (tree.nextLeafIdx * 2) + 1)
    have := Nat.two_pow_pos (h + 1)
    rcases Nat.eq_zero_or_pos tree.nextLeafIdx with zero | positive
    · have := Nat.two_pow_pos h
      rw [zero, Nat.zero_mul, Nat.log2_zero] at powers ⊢
      omega
    · rw [Nat.log2_lt (by omega), pow_succ 2 h] at powers
      omega
  unfold maybeGrowTree grown
  rw [fromLeafCount_eq room, shaped.size]
  simp only [bind, Except.bind]
  rw [show (TreeSize.ofHeight h).nodes = 2 ^ (h + 1) - 1 from rfl]
  by_cases enough : tree.nextLeafIdx < 2 ^ h
  · rw [if_pos (fits.mpr enough), if_pos enough]
    rfl
  · rw [if_neg (mt fits.mp enough), if_neg enough]
    unfold growTreeToSize
    simp only [inc_ofHeight, leafCount_ofHeight, innerNodeCount_ofHeight]
    have := Nat.two_pow_pos h
    rw [takeD_eq_append (by rw [shaped.leaves, pow_succ]; omega),
      takeD_eq_append (by rw [shaped.inner, pow_succ]; omega), shaped.leaves, shaped.inner,
      show 2 ^ (h + 1) - 2 ^ h = 2 ^ h by rw [pow_succ]; omega,
      show 2 ^ (h + 1) - 1 - (2 ^ h - 1) = 2 ^ h by rw [pow_succ]; omega]
    rfl

theorem Shaped.grown (shaped : tree.Shaped h)
    (room : tree.nextLeafIdx < 2 ^ 30) : (tree.grown h).Shaped (tree.pushHeight h) := by
  unfold BeeKem.grown pushHeight
  split
  · exact shaped
  · rename_i full
    have := Nat.two_pow_pos h
    refine
      { positive := by omega
        low := ?_
        size := rfl
        leaves := ?_
        inner := ?_
        next := ?_
        index := fun id idx found => ?_ }
    · have bound : 2 ^ h < 2 ^ 30 := by omega
      have := (Nat.pow_lt_pow_iff_right (by omega)).mp bound
      omega
    · simp only [List.length_append, List.length_replicate, shaped.leaves]
      rw [pow_succ]
      omega
    · simp only [List.length_append, List.length_replicate, shaped.inner]
      rw [pow_succ]
      omega
    · have := shaped.next
      show tree.nextLeafIdx ≤ _
      rw [pow_succ]
      omega
    · have := shaped.index id idx found
      rw [pow_succ]
      omega

theorem nextLeafIdx_grown (tree : BeeKem) (h : Nat) :
    (tree.grown h).nextLeafIdx = tree.nextLeafIdx := by
  unfold grown
  split <;> rfl

theorem idToLeafIdx_grown (tree : BeeKem) (h : Nat) :
    (tree.grown h).idToLeafIdx = tree.idToLeafIdx := by
  unfold grown
  split <;> rfl

theorem lt_pushHeight (shaped : tree.Shaped h) :
    tree.nextLeafIdx < 2 ^ tree.pushHeight h := by
  have := shaped.next
  have := Nat.two_pow_pos h
  unfold pushHeight
  split
  · assumption
  · rw [pow_succ]
    omega

def pushed (tree : BeeKem) (h : Nat) (id : MemberId) (pk : NodeKey) : BeeKem :=
  let grown := tree.grown h
  { grown with
    nextLeafIdx := tree.nextLeafIdx + 1
    leaves := grown.leaves.set tree.nextLeafIdx (some ⟨id, pk⟩)
    idToLeafIdx := tree.idToLeafIdx.insert id tree.nextLeafIdx }.withBlanked
      (above (tree.pushHeight h) 0 tree.nextLeafIdx)

theorem Shaped.pushed (shaped : tree.Shaped h)
    (room : tree.nextLeafIdx < 2 ^ 30) (id : MemberId) (pk : NodeKey) :
    (tree.pushed h id pk).Shaped (tree.pushHeight h) := by
  have shapedGrown := shaped.grown room
  have within := lt_pushHeight shaped
  have shapedLeaf : ({ tree.grown h with
      nextLeafIdx := tree.nextLeafIdx + 1
      leaves := (tree.grown h).leaves.set tree.nextLeafIdx (some ⟨id, pk⟩)
      idToLeafIdx := tree.idToLeafIdx.insert id tree.nextLeafIdx } : BeeKem).Shaped
        (tree.pushHeight h) := by
    refine { shapedGrown with
      leaves := List.length_set.trans shapedGrown.leaves
      next := within
      index := fun other idx found => ?_ }
    simp only [ExtTreeMap.getElem?_insert] at found
    split at found
    · simp only [Option.some.injEq] at found
      omega
    · exact shapedGrown.index other idx (by rwa [idToLeafIdx_grown])
  exact shapedLeaf.withBlanked _

/-- **Pushing a leaf.** It fails only on a tree of `2 ^ 30` leaves, where it never returns. -/
theorem Shaped.pushLeaf_eq (shaped : tree.Shaped h) (id : MemberId)
    (pk : NodeKey) :
    tree.pushLeaf id pk
      = if tree.nextLeafIdx < 2 ^ 30 then .ok (tree.nextLeafIdx, tree.pushed h id pk)
        else .error .diverge := by
  have within := lt_pushHeight shaped
  unfold pushLeaf
  split
  · rename_i room
    have shapedGrown := shaped.grown room
    have shapedPushed := shaped.pushed room id pk
    rw [shaped.maybeGrowTree_eq room]
    simp only [bind, Except.bind, nextLeafIdx_grown, idToLeafIdx_grown]
    unfold insertLeafAt
    simp only [shapedGrown.leaves, if_pos within]
    have shapedLeaf : ({ tree.grown h with
        nextLeafIdx := tree.nextLeafIdx + 1
        leaves := (tree.grown h).leaves.set tree.nextLeafIdx (some ⟨id, pk⟩)
        idToLeafIdx := tree.idToLeafIdx.insert id tree.nextLeafIdx } : BeeKem).Shaped
          (tree.pushHeight h) :=
      { shapedPushed with inner := shapedGrown.inner }
    rw [shapedLeaf.blankPath_leaf within]
    rfl
  · rename_i full
    have := shaped.next
    have bound : 2 ^ h ≤ 2 ^ 30 := Nat.pow_le_pow_right (by omega) shaped.low
    unfold maybeGrowTree TreeSize.fromLeafCount TreeSize.new u32Size
    rw [show tree.nextLeafIdx = 2 ^ 30 by omega]
    rfl

theorem Shaped.pushLeaf_ok {tree' : BeeKem} {id : MemberId} {pk : NodeKey}
    (shaped : tree.Shaped h) (pushes : tree.pushLeaf id pk = .ok (idx, tree')) :
    tree.nextLeafIdx < 2 ^ 30 ∧ idx = tree.nextLeafIdx ∧ tree' = tree.pushed h id pk := by
  rw [shaped.pushLeaf_eq] at pushes
  split at pushes
  · simp only [Except.ok.injEq, Prod.mk.injEq] at pushes
    exact ⟨by assumption, pushes.1.symm, pushes.2.symm⟩
  · simp at pushes

end BeeKem

end KeyhiveEval.Beekem
