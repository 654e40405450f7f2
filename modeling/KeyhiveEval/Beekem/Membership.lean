/-
**Changes of the membership: what a remove and the end of an epoch leave.**

* `collectTombstones_ok`, `removeId_ok` — a successful remove, written out. `Collected` says where
  the collection of the blank leaves on the right has stopped.
* `popAdded_induct`, `pushLeaves_induct`, `blankRemoved_induct` — the rules for the three loops at
  the end of an epoch: what each step keeps, the loop keeps.
* `sortLeaves_ok_iff`, `Shaped.sorted` — the end of an epoch is these three loops, and keeps the shape.
-/

import KeyhiveEval.Beekem.TreeShape

namespace KeyhiveEval.Beekem

open Std PerfectTree Stateful

namespace BeeKem

/-! ### Collecting tombstones -/

/-- The leaves from `stop` to `start` are blank, and the one before is not. -/
structure Collected (leaves : List (Option LeafNode)) (start stop : Nat) : Prop where
  positive : 0 < stop
  le : stop ≤ start
  last : ∃ leaf, leaves[stop - 1]? = some (some leaf)
  blank : ∀ idx : Nat, stop ≤ idx → idx < start → leaves[idx]? = some none

variable {tree tree' : BeeKem} {h : Nat}

/-- What collecting the blank leaves leaves: fewer leaves in use, and blank paths. -/
theorem collectTombstones_ok {n : Nat} (shaped : tree.Shaped h)
    (next : tree.nextLeafIdx = n) (noEncrypter : tree.currentSecretEncrypterLeafIdx = none)
    (collects : collectTombstones n tree = .ok tree') :
    ∃ stop nodes, Collected tree.leaves n stop ∧ Blanker tree.innerNodes nodes ∧
      tree' = { tree with nextLeafIdx := stop, innerNodes := nodes } := by
  induction n generalizing tree with
  | zero => simp [collectTombstones] at collects
  | succ n ih =>
    have within : n < 2 ^ h := by
      have := shaped.next
      omega
    obtain ⟨found, here, read⟩ := shaped.leaf_eq within
    unfold collectTombstones at collects
    rw [read, shaped.blankPath_leaf within] at collects
    cases found with
    | some leaf =>
      simp only [bind, Except.bind, pure, Except.pure, Except.ok.injEq] at collects
      refine ⟨n + 1, tree.innerNodes, ⟨by omega, Nat.le_refl _, ⟨leaf, here⟩, by omega⟩, .refl _, ?_⟩
      rw [← collects, ← next]
    | none =>
      simp only [bind, Except.bind] at collects
      have shaped' : ({ tree.withBlanked (above h 0 n) with nextLeafIdx := n } : BeeKem).Shaped h :=
        { shaped.withBlanked _ with next := within.le }
      obtain ⟨stop, nodes, collected, blanker, rfl⟩ := ih shaped' rfl rfl collects
      refine ⟨stop, nodes, ⟨collected.positive, by have := collected.le; omega, collected.last,
        fun idx low high => ?_⟩, (blanker_blankAll _ _).trans blanker, ?_⟩
      · rcases Nat.eq_or_lt_of_le (Nat.le_of_lt_succ high) with rfl | lower
        · exact here
        · exact collected.blank idx low lower
      · unfold withBlanked
        rw [← noEncrypter]

/-! ### Removing a member -/

variable {id : MemberId} {idx : Nat}

theorem leafIndexForId_ok_iff :
    tree.leafIndexForId id = .ok idx ↔ tree.idToLeafIdx[id]? = some idx := by
  unfold leafIndexForId
  cases tree.idToLeafIdx[id]? <;> simp

theorem root_mem_above (positive : 1 ≤ h) (within : idx < 2 ^ h) :
    innerIdx h 0 ∈ above h 0 idx := by
  refine mem_above.mpr ⟨h - 1, by omega, ?_⟩
  rw [show 0 + 1 + (h - 1) = h by omega, show h - 1 + 1 = h by omega, Nat.div_eq_of_lt within]

theorem root_lt (positive : 1 ≤ h) : innerIdx h 0 < 2 ^ h - 1 := by
  obtain ⟨k, rfl⟩ := Nat.exists_eq_add_of_le' positive
  exact Inside.innerIdx_lt ⟨Nat.le_refl _, by simp⟩

/-- With a leaf, the root is blanked. -/
theorem Shaped.root_withBlankedLeaf (shaped : tree.Shaped h)
    (within : idx < 2 ^ h) : (tree.withBlankedLeaf h idx).innerNodes[innerIdx h 0]? = some none := by
  show (blankAll _ _)[innerIdx h 0]? = some none
  have bound : innerIdx h 0 < tree.innerNodes.length := by
    rw [shaped.inner]
    exact root_lt shaped.positive
  rw [getElem?_blankAll, if_pos ⟨root_mem_above shaped.positive within, bound⟩]

variable {removedKeys : List ShareKey}

/-- **A successful remove.** -/
theorem Shaped.removeId_ok {lIdx : Nat} (shaped : tree.Shaped h)
    (removes : tree.removeId id = .ok ((lIdx, removedKeys), tree')) :
    tree.memberCount ≠ 1 ∧ tree.idToLeafIdx[id]? = some lIdx ∧ ∃ stop nodes,
      Collected (tree.leaves.set lIdx none) tree.nextLeafIdx stop ∧
      Blanker tree.innerNodes nodes ∧ nodes[innerIdx h 0]? = some none ∧
      tree' = { tree with
        nextLeafIdx := stop
        leaves := tree.leaves.set lIdx none
        innerNodes := nodes
        idToLeafIdx := tree.idToLeafIdx.erase id
        currentSecretEncrypterLeafIdx := none } := by
  unfold removeId at removes
  split at removes
  · simp at removes
  · rename_i several
    obtain ⟨found, lookup, removes⟩ := except_bind_ok_iff.mp removes
    rw [leafIndexForId_ok_iff] at lookup
    obtain ⟨path, -, removes⟩ := except_bind_ok_iff.mp removes
    obtain ⟨keys, -, removes⟩ := except_bind_ok_iff.mp removes
    have within := shaped.index id found lookup
    rw [shaped.blankLeafAndPath_eq, if_pos within] at removes
    obtain ⟨blanked, same, removes⟩ := except_bind_ok_iff.mp removes
    obtain rfl := Except.ok.inj same
    obtain ⟨collectedTree, collects, removes⟩ := except_bind_ok_iff.mp removes
    simp only [except_pure_ok_iff, Prod.mk.injEq] at removes
    obtain ⟨⟨rfl, rfl⟩, rfl⟩ := removes
    have shaped' : ({ tree.withBlankedLeaf h found with
        idToLeafIdx := tree.idToLeafIdx.erase id } : BeeKem).Shaped h :=
      { shaped.withBlankedLeaf found with
        index := fun other idx present => by
          simp only [ExtTreeMap.getElem?_erase] at present
          split at present
          · simp at present
          · exact shaped.index other idx present }
    obtain ⟨stop, nodes, collected, blanker, rfl⟩ := collectTombstones_ok shaped' rfl rfl collects
    refine ⟨several, lookup, stop, nodes, collected, (blanker_blankAll _ _).trans blanker,
      blanker.blank (shaped.root_withBlankedLeaf within), rfl⟩

/-- A remove keeps the shape. -/
theorem Shaped.removed {lIdx : Nat} (shaped : tree.Shaped h)
    (removes : tree.removeId id = .ok ((lIdx, removedKeys), tree')) : tree'.Shaped h := by
  obtain ⟨-, -, stop, nodes, collected, blanker, -, rfl⟩ := shaped.removeId_ok removes
  refine { shaped with
    leaves := List.length_set.trans shaped.leaves
    inner := blanker.length.trans shaped.inner
    next := collected.le.trans shaped.next
    index := fun other idx present => ?_ }
  simp only [ExtTreeMap.getElem?_erase] at present
  split at present
  · simp at present
  · exact shaped.index other idx present

/-! ### The end of an epoch -/

/-- What each blanking keeps, the first loop keeps. -/
theorem blankRemoved_induct {motive : BeeKem → Prop} {removed : List (MemberId × Nat)}
    (step : ∀ entry ∈ removed, ∀ before after, motive before →
      before.blankLeafAndPath entry.2 = .ok after → motive after)
    (start : motive tree) (blanks : blankRemoved removed tree = .ok tree') : motive tree' := by
  induction removed generalizing tree with
  | nil =>
    obtain rfl := Except.ok.inj blanks
    exact start
  | cons entry removed ih =>
    unfold blankRemoved at blanks
    obtain ⟨after, blanked, blanks⟩ := except_bind_ok_iff.mp blanks
    exact ih (fun entry' member => step entry' (List.mem_cons_of_mem _ member))
      (step entry List.mem_cons_self tree after start blanked) blanks

variable {motive : BeeKem → List LeafNode → Prop} {addedIds : ExtTreeSet MemberId}

/-- What taking off the last leaf keeps, the second loop keeps. -/
theorem popAdded_induct {n : Nat} {acc popped : List LeafNode}
    (step : ∀ before idx found after acc, motive before acc → before.nextLeafIdx = idx + 1 →
      before.leaf idx = .ok found → before.blankLeafAndPath idx = .ok after →
      motive { after with nextLeafIdx := idx } (acc ++ found.toList))
    (next : tree.nextLeafIdx = n) (start : motive tree acc)
    (pops : popAdded n tree addedIds acc = .ok (tree', popped)) : motive tree' popped := by
  induction n generalizing tree addedIds acc with
  | zero =>
    obtain ⟨rfl, rfl⟩ := Prod.mk.inj (Except.ok.inj pops)
    exact start
  | succ idx ih =>
    unfold popAdded at pops
    split at pops
    · obtain ⟨rfl, rfl⟩ := Prod.mk.inj (Except.ok.inj pops)
      exact start
    · obtain ⟨found, read, pops⟩ := except_bind_ok_iff.mp pops
      have popped := step tree idx found
      cases found with
      | some leaf =>
        obtain ⟨after, blanked, pops⟩ := except_bind_ok_iff.mp pops
        exact ih rfl (popped after acc start next read blanked) pops
      | none =>
        obtain ⟨after, blanked, pops⟩ := except_bind_ok_iff.mp pops
        have := popped after acc start next read blanked
        rw [Option.toList_none, List.append_nil] at this
        exact ih rfl this pops

/-- What pushing a leaf keeps, the third loop keeps. -/
theorem pushLeaves_induct {nodes : List LeafNode}
    (step : ∀ before node rest idx after, motive before (node :: rest) →
      before.pushLeaf node.id node.pk = .ok (idx, after) → motive after rest)
    (start : motive tree nodes) (pushes : pushLeaves nodes tree = .ok tree') : motive tree' [] := by
  induction nodes generalizing tree with
  | nil =>
    obtain rfl := Except.ok.inj pushes
    exact start
  | cons node nodes ih =>
    unfold pushLeaves at pushes
    obtain ⟨⟨idx, after⟩, pushed, pushes⟩ := except_bind_ok_iff.mp pushes
    exact ih (step tree node nodes idx after start pushed) pushes

theorem perm_sortLeaves (nodes : List LeafNode) : (sortLeaves nodes).Perm nodes :=
  List.perm_insertionSort _ nodes

variable {removedIds : List (MemberId × Nat)}

/-- **The end of an epoch**, loop by loop. -/
theorem sortLeaves_ok_iff :
    tree.sortLeavesAndBlankPathsForConcurrentMembershipChanges addedIds removedIds = .ok tree'
      ↔ ∃ blanked popped leavesToSort, blankRemoved removedIds tree = .ok blanked ∧
        popAdded blanked.nextLeafIdx blanked
          (removedIds.foldl (fun ids removed => ids.erase removed.1) addedIds) []
          = .ok (popped, leavesToSort) ∧
        pushLeaves (sortLeaves leavesToSort) popped = .ok tree' := by
  unfold sortLeavesAndBlankPathsForConcurrentMembershipChanges
  constructor
  · intro sorts
    obtain ⟨blanked, blanks, sorts⟩ := except_bind_ok_iff.mp sorts
    obtain ⟨⟨popped, leavesToSort⟩, pops, pushes⟩ := except_bind_ok_iff.mp sorts
    exact ⟨blanked, popped, leavesToSort, blanks, pops, pushes⟩
  · rintro ⟨blanked, popped, leavesToSort, blanks, pops, pushes⟩
    exact except_bind_ok_iff.mpr ⟨blanked, blanks, except_bind_ok_iff.mpr ⟨_, pops, pushes⟩⟩

theorem Shaped.blankLeafAndPath_ok (shaped : tree.Shaped h)
    (blanks : tree.blankLeafAndPath idx = .ok tree') :
    idx < 2 ^ h ∧ tree' = tree.withBlankedLeaf h idx := by
  rw [shaped.blankLeafAndPath_eq] at blanks
  split at blanks
  · exact ⟨by assumption, (Except.ok.inj blanks).symm⟩
  · simp at blanks

/-- **The end of an epoch keeps a shape.** -/
theorem Shaped.sorted (shaped : tree.Shaped h)
    (sorts : tree.sortLeavesAndBlankPathsForConcurrentMembershipChanges addedIds removedIds
      = .ok tree') : ∃ h', tree'.Shaped h' := by
  obtain ⟨blanked, popped, leavesToSort, blanks, pops, pushes⟩ := sortLeaves_ok_iff.mp sorts
  have first : blanked.Shaped h := by
    refine blankRemoved_induct (motive := fun tree => tree.Shaped h)
      (fun entry _ before after shaped blanked => ?_) shaped blanks
    obtain ⟨-, rfl⟩ := shaped.blankLeafAndPath_ok blanked
    exact shaped.withBlankedLeaf _
  have second : popped.Shaped h := by
    refine popAdded_induct (motive := fun tree _ => tree.Shaped h)
      (fun before idx found after _ shaped next _ blanked => ?_) rfl first pops
    obtain ⟨within, rfl⟩ := shaped.blankLeafAndPath_ok blanked
    exact { shaped.withBlankedLeaf _ with next := within.le }
  refine pushLeaves_induct (motive := fun tree _ => ∃ h', tree.Shaped h')
    (fun before node rest idx after => ?_) ⟨h, second⟩ pushes
  rintro ⟨h', shaped⟩ pushed
  obtain ⟨room, -, rfl⟩ := shaped.pushLeaf_ok pushed
  exact ⟨_, shaped.pushed room _ _⟩

/-! ### The first tree -/

/-- **The first tree**, in full. -/
theorem new_ok (docId : TreeId) (id : MemberId) (pk : ShareKey) :
    ∃ tree, new docId id pk = .ok tree ∧ tree.Shaped 1 ∧
      tree.leaves = [some ⟨id, .shareKey pk⟩, none] ∧ tree.innerNodes = [none] ∧
      tree.nextLeafIdx = 1 ∧ tree.idToLeafIdx = (∅ : ExtTreeMap MemberId Nat).insert id 0 ∧
      tree.currentSecretEncrypterLeafIdx = none ∧ tree.docId = docId := by
  have shaped : (BeeKem.mk docId 0 [none, none] [none] (.ofHeight 1) ∅ none).Shaped 1 :=
    { positive := by omega
      low := by omega
      size := rfl
      leaves := rfl
      inner := rfl
      next := by simp
      index := by simp }
  have grows : (BeeKem.mk docId 0 [] [] (.ofHeight 1) ∅ none).growTreeToSize
      = BeeKem.mk docId 0 [none, none] [none] (.ofHeight 1) ∅ none := by
    unfold growTreeToSize
    rw [leafCount_ofHeight, innerNodeCount_ofHeight]
    rfl
  have size : TreeSize.fromLeafCount 1 = .ok (.ofHeight 1) := by
    rw [fromLeafCount_eq (by decide), show Nat.log2 (1 * 2) = 1 by decide]
    rfl
  refine ⟨(BeeKem.mk docId 0 [none, none] [none] (.ofHeight 1) ∅ none).pushed 1 id (.shareKey pk),
    ?_, shaped.pushed (show 0 < 2 ^ 30 by decide) _ _, rfl, ?_, rfl, rfl, rfl, rfl⟩
  · unfold new
    rw [size]
    simp only [bind, Except.bind]
    rw [grows, shaped.pushLeaf_eq, if_pos (show 0 < 2 ^ 30 by decide)]
    rfl
  · simp [pushed, withBlanked, BeeKem.grown, pushHeight, above, blankAll, innerIdx, pos]

end BeeKem

end KeyhiveEval.Beekem
