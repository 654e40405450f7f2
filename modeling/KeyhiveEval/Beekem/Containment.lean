/-
**When a path change stays where it belongs.**

`BeeKem.applyPath` takes over what another member has computed on their own tree. It looks up the
leaf of the member, walks the path of the leaf that the change names, and writes stores by their
numbers. On a tree of any run, also in the middle of a replay, it ends and
writes nothing but the leaf of the member, the nodes above it and the encrypter exactly if the change
is applicable (`applyPath_contained_iff`):

* the leaf that the change names lies in the tree, since otherwise the walk to the root never ends;
* the leaf that the map gives the member is there and is theirs;
* the stores of a path that fits go to nodes above the leaf, or change nothing.

The first one fails for honest members: a replay that removes members first needs a smaller tree than
the sender had (`walk_leaves_the_tree`).
-/

import KeyhiveEval.Beekem.Bijection

namespace KeyhiveEval.Beekem

open Std Stateful

/-! ### What a change may write -/

namespace BeeKem

/-- Nothing changes but the leaf of a member, the inner nodes above it and the encrypter. -/
structure Contained (id : MemberId) (tree tree' : BeeKem) : Prop where
  leaf : ∀ idx : Nat, tree'.leaves[idx]? ≠ tree.leaves[idx]? →
    tree.idToLeafIdx[id]? = some idx ∧ ∃ old, tree.leaves[idx]? = some (some old) ∧ old.id = id
  inner : ∀ j : Nat, tree'.innerNodes[j]? ≠ tree.innerNodes[j]? →
    ∃ idx path, tree.idToLeafIdx[id]? = some idx ∧
      directPath (.leaf idx) tree.treeSize = .ok path ∧ j ∈ path
  rest : tree' = { tree with
    leaves := tree'.leaves
    innerNodes := tree'.innerNodes
    currentSecretEncrypterLeafIdx := tree'.currentSecretEncrypterLeafIdx }

/-- **The changes that can be applied to a tree.** The number of a leaf is doubled in 32 bits when
the walk starts, so its top bit does not count. -/
def Applicable (tree : BeeKem) (newPath : PathChange) : Prop :=
  tree.containsId newPath.leafId = true →
    ∃ idx path old, tree.idToLeafIdx[newPath.leafId]? = some idx ∧
      directPath (.leaf idx) tree.treeSize = .ok path ∧
      tree.leaves[idx]? = some (some old) ∧ old.id = newPath.leafId ∧
      newPath.leafIdx % 2 ^ 31 < tree.treeSize.leafCount ∧
      (newPath.path.length = path.length → newPath.leafIdx = idx →
        (∀ entry ∈ newPath.path, entry.1 < tree.innerNodes.length) ∧
        ∀ j, j ∉ path → ∀ current, tree.innerNodes[j]? = some current →
          rewriteNode newPath.removedKeys newPath.path j current = current)

theorem contained_refl (id : MemberId) (tree : BeeKem) : Contained id tree tree where
  leaf _ changed := absurd rfl changed
  inner _ changed := absurd rfl changed
  rest := rfl

variable {tree : BeeKem} {old : LeafNode} {newPath : PathChange}

/-- A path that fits writes its stores where their numbers say. -/
theorem Shaped.contained_of_fits {h idx : Nat} (shaped : tree.Shaped h)
    (lookup : tree.idToLeafIdx[newPath.leafId]? = some idx)
    (present : tree.leaves[idx]? = some (some old)) (own : old.id = newPath.leafId)
    (fits : Fits h idx newPath) :
    Contained newPath.leafId tree (tree.appliedPath h idx old newPath) ↔
      ∀ j, j ∉ above h 0 idx → ∀ current, tree.innerNodes[j]? = some current →
        rewriteNode newPath.removedKeys newPath.path j current = current := by
  have path := directPath_leaf_of_lt (shaped.low.trans (by decide)) (shaped.index _ _ lookup)
  rw [← shaped.size] at path
  have nodes : (tree.appliedPath h idx old newPath).innerNodes
      = mergeNodes newPath.removedKeys newPath.path tree.innerNodes := by
    unfold BeeKem.appliedPath
    rw [if_pos fits]
  constructor
  · intro contained j off current found
    have same : (tree.appliedPath h idx old newPath).innerNodes[j]? = tree.innerNodes[j]? := by
      by_contra changed
      obtain ⟨idx', path', lookup', path_eq, member⟩ := contained.inner j changed
      obtain rfl := Option.some.inj (lookup.symm.trans lookup')
      exact off (Except.ok.inj (path.symm.trans path_eq) ▸ member)
    rw [nodes, getElem?_mergeNodes, found] at same
    exact Option.some.inj same
  · intro kept
    refine ⟨fun j changed => ?_, fun j changed => ?_, by unfold BeeKem.appliedPath; rw [if_pos fits]⟩
    · by_cases here : idx = j
      · subst here
        exact ⟨lookup, old, present, own⟩
      · refine absurd ?_ changed
        unfold BeeKem.appliedPath mergedLeaves
        rw [if_pos fits, List.getElem?_set_ne here]
    · refine ⟨idx, _, lookup, path, ?_⟩
      by_contra off
      refine changed ?_
      rw [nodes, getElem?_mergeNodes]
      cases found : tree.innerNodes[j]? with
      | none => rfl
      | some current => exact congrArg some (kept j off current found)

/-- A path that does not fit is dropped, and the path of the leaf is blanked. -/
theorem Shaped.contained_of_not_fits {h idx : Nat} (shaped : tree.Shaped h)
    (lookup : tree.idToLeafIdx[newPath.leafId]? = some idx)
    (present : tree.leaves[idx]? = some (some old)) (own : old.id = newPath.leafId)
    (unfit : ¬ Fits h idx newPath) :
    Contained newPath.leafId tree (tree.appliedPath h idx old newPath) := by
  have path := directPath_leaf_of_lt (shaped.low.trans (by decide)) (shaped.index _ _ lookup)
  rw [← shaped.size] at path
  unfold BeeKem.appliedPath
  rw [if_neg unfit]
  refine ⟨fun j changed => ?_, fun j changed => ?_, rfl⟩
  · by_cases here : idx = j
    · subst here
      exact ⟨lookup, old, present, own⟩
    · exact absurd (List.getElem?_set_ne here) changed
  · refine ⟨idx, _, lookup, path, ?_⟩
    by_contra off
    refine changed ?_
    show (blankAll (above h 0 idx) tree.innerNodes)[j]? = _
    rw [getElem?_blankAll, if_neg fun both => off both.1]

theorem Shaped.own_of_contained {h idx : Nat} (present : tree.leaves[idx]? = some (some old))
    (contained : Contained newPath.leafId tree (tree.appliedPath h idx old newPath)) :
    old.id = newPath.leafId := by
  by_contra foreign
  have bound := (List.getElem?_eq_some_iff.mp present).1
  have written : (tree.appliedPath h idx old newPath).leaves[idx]?
      = some (some ⟨newPath.leafId, old.pk.merge newPath.leafPk newPath.removedKeys⟩) := by
    unfold BeeKem.appliedPath
    split
    · exact List.getElem?_set_self bound
    · exact List.getElem?_set_self bound
  have changed : (tree.appliedPath h idx old newPath).leaves[idx]? ≠ tree.leaves[idx]? := by
    rw [written, present]
    intro same
    exact foreign (congrArg LeafNode.id (Option.some.inj (Option.some.inj same))).symm
  obtain ⟨-, old', present', own⟩ := contained.leaf idx changed
  obtain rfl := Option.some.inj (Option.some.inj (present.symm.trans present'))
  exact foreign own

/-- **Applying a change ends without a panic and writes only where it may exactly if the change is
applicable.** -/
theorem applyPath_contained_iff {tree : BeeKem} {h : Nat} (shaped : tree.Shaped h)
    (newPath : PathChange) :
    (∃ tree', tree.applyPath newPath = .ok tree' ∧ Contained newPath.leafId tree tree') ↔
      tree.Applicable newPath := by
  cases lookup : tree.idToLeafIdx[newPath.leafId]? with
  | none =>
    have absent : tree.containsId newPath.leafId = false := by
      unfold containsId
      rw [ExtTreeMap.contains_eq_isSome_getElem?, lookup]
      rfl
    refine ⟨fun _ present => by simp [absent] at present, fun _ => ⟨tree, ?_, contained_refl _ _⟩⟩
    unfold applyPath
    rw [lookup]
    rfl
  | some idx =>
    have present : tree.containsId newPath.leafId = true := by
      unfold containsId
      rw [ExtTreeMap.contains_eq_isSome_getElem?, lookup]
      rfl
    have path := directPath_leaf_of_lt (shaped.low.trans (by decide)) (shaped.index _ _ lookup)
    rw [← shaped.size] at path
    have count : tree.treeSize.leafCount = 2 ^ h := by rw [shaped.size, leafCount_ofHeight]
    constructor
    · rintro ⟨tree', applies, contained⟩ -
      rcases shaped.applyPath_ok applies with ⟨absent, -⟩ | ⟨idx', old, lookup', here, rfl⟩
      · simp [lookup] at absent
      obtain rfl := Option.some.inj (lookup.symm.trans lookup')
      have own := Shaped.own_of_contained here contained
      rw [shaped.applyPath_eq lookup, here] at applies
      split at applies
      · rename_i within
        refine ⟨idx, _, old, lookup, path, here, own, count ▸ within, fun length same => ?_⟩
        have fits : Fits h idx newPath := ⟨length.trans (length_above _ _ _), same.symm⟩
        refine ⟨?_, (shaped.contained_of_fits lookup here own fits).mp contained⟩
        by_contra outside
        simp only [Option.join_some, fits, true_and, ← shaped.inner, outside, not_false_eq_true,
          if_true, reduceCtorEq] at applies
      · simp at applies
    · intro applicable
      obtain ⟨idx', path', old, lookup', path_eq, here, own, within, kept⟩ := applicable present
      obtain rfl := Option.some.inj (lookup.symm.trans lookup')
      obtain rfl := Except.ok.inj (path.symm.trans path_eq)
      refine ⟨tree.appliedPath h idx old newPath, ?_, ?_⟩
      · rw [shaped.applyPath_eq lookup, here, if_pos (count ▸ within)]
        simp only [Option.join_some]
        refine if_neg fun both => both.2 ?_
        have := kept (both.1.1.trans (length_above _ _ _).symm) both.1.2.symm
        rw [← shaped.inner]
        exact this.1
      · by_cases fits : Fits h idx newPath
        · rw [shaped.contained_of_fits lookup here own fits]
          exact (kept (fits.1.trans (length_above _ _ _).symm) fits.2.symm).2
        · exact shaped.contained_of_not_fits lookup here own fits

end BeeKem

/-- A group of members 1 and 2. -/
def pair : BeeKem where
  docId := ⟨0⟩
  nextLeafIdx := 2
  leaves := [some ⟨Sample.member 1, .shareKey (Sample.key 16)⟩, some ⟨Sample.member 2, .shareKey (Sample.key 0x20)⟩]
  innerNodes := [none]
  treeSize := .ofHeight 1
  idToLeafIdx := ((∅ : ExtTreeMap MemberId Nat).insert (Sample.member 1) 0).insert (Sample.member 2) 1
  currentSecretEncrypterLeafIdx := none

/-- Member 2 has a new key, and a new key for the root. -/
def secondRekeys : PathChange :=
  ⟨Sample.member 2, 1, .shareKey (Sample.key 0x50), [(0, .new (Sample.key 0x51) (Sample.key 0x50) ∅)], []⟩

theorem shaped_pair : pair.Shaped 1 where
  positive := Nat.le_refl _
  low := by decide
  size := rfl
  leaves := rfl
  inner := rfl
  next := Nat.le_refl _
  index id idx found := by
    simp only [pair, ExtTreeMap.getElem?_insert] at found
    split at found
    · simp [← Option.some.inj found]
    · split at found
      · simp [← Option.some.inj found]
      · simp at found

/-- A key change of the second of two members stays where it belongs. -/
theorem contained_in_pair :
    ∃ tree' : BeeKem, pair.applyPath secondRekeys = .ok tree' ∧ tree'.innerNodes ≠ pair.innerNodes ∧
      BeeKem.Contained (Sample.member 2) pair tree' := by
  obtain ⟨tree', applies, contained⟩ := (BeeKem.applyPath_contained_iff shaped_pair secondRekeys).mpr <| by
    intro _
    refine ⟨1, [0], ⟨Sample.member 2, .shareKey (Sample.key 0x20)⟩, by decide +kernel, by decide +kernel, rfl, rfl,
      by decide +kernel, fun _ _ => ⟨by decide, fun j off current found => ?_⟩⟩
    -- The root is on the path, and there is no other inner node.
    have root : j < 1 := (List.getElem?_eq_some_iff.mp found).1
    simp [show j = 0 by omega] at off
  have writes : (pair.applyPath secondRekeys).toOption.map (fun tree => tree.innerNodes)
      = some [some (.new (Sample.key 0x51) (Sample.key 0x50) ∅)] := by decide +kernel
  rw [applies] at writes
  have written : tree'.innerNodes = _ := Option.some.inj writes
  exact ⟨tree', applies, by simp [written, pair], contained⟩

/-- One replica removes member 2, another one adds member 3, who updates their key. -/
def updateBesideRemove : List (Nat × Call Unit) :=
  [(0, .add (Sample.member 2) (Sample.key 0x20) (Sample.signer 2)),
   (0, .withNewOwner (Sample.member 2) (Sample.secrets [0x20])),
   (0, .remove (Sample.member 2) (Sample.signer 3)),
   (1, .add (Sample.member 3) (Sample.key 0x30) (Sample.signer 4)),
   (1, .withNewOwner (Sample.member 3) (Sample.secrets [0x30])),
   (2, .update (Sample.key 0x50) (Sample.secret 0x50) (Sample.signer 6) (Sample.rng 0x60)),
   (0, .mergeConcurrentOperation 3),
   (0, .update (Sample.key 0x58) (Sample.secret 0x58) (Sample.signer 7) (Sample.rng 0x68))]

/-- An update of the leaf 2, which does not return in a tree with two leaves. -/
def hangs (cgka : Cgka) : CgkaOperation → Bool
  | .update _ newPath _ _ =>
    cgka.tree.treeSize == .ofHeight 1 && newPath.leafIdx == 2 &&
      match cgka.tree.applyPath newPath with
      | .error .diverge => true
      | _ => false
  | _ => false

/-- **An honest update makes the walk to the root leave the tree**: member 3 has updated the leaf 2 of
a tree with four leaves; the first replica has removed member 2 before it has added member 3, so its
tree has two leaves, and no number of steps from the leaf 2 reaches the root. -/
theorem walk_leaves_the_tree :
    ∃ (first : Cgka) (w : World Unit) (cgka : Cgka) (entry : SignedOp × Cgka) (id : MemberId)
      (newPath : PathChange) (predecessors : List OpDigest) (docId : TreeId),
      Sample.create = .ok first ∧ World.Reachable Sample.suite first (fun _ _ _ => True) w ∧
      cgka ∈ w.replicas ∧ entry ∈ w.published ∧
      entry.1.payload = .update id newPath predecessors docId ∧
      cgka.tree.applyPath newPath = .error .diverge ∧
      ∀ fuel, directPathLoop (root cgka.tree.treeSize).u32 fuel
        (TreeNodeIndex.leaf newPath.leafIdx).u32 [] = .error .diverge := by
  obtain ⟨first, w, created, reached, hung⟩ := Sample.reachedFreely updateBesideRemove
    (fun w => w.replicas.any fun cgka => w.published.any fun entry => hangs cgka entry.1.payload)
    (by decide +kernel)
  obtain ⟨cgka, member, hung⟩ := List.any_eq_true.mp hung
  obtain ⟨entry, published, hung⟩ := List.any_eq_true.mp hung
  cases payload : entry.1.payload with
  | add => simp [hangs, payload] at hung
  | remove => simp [hangs, payload] at hung
  | update id newPath predecessors docId =>
    rw [payload] at hung
    obtain ⟨places, hung⟩ := Bool.and_eq_true_iff.mp hung
    obtain ⟨size, leaf⟩ := Bool.and_eq_true_iff.mp places
    refine ⟨first, w, cgka, entry, id, newPath, predecessors, docId, created, reached, member,
      published, payload, ?_, fun fuel => ?_⟩
    · split at hung
      · assumption
      · simp at hung
    · rw [eq_of_beq size, eq_of_beq leaf]
      exact directPathLoop_outside (h := 1) (by decide) (by decide) (by decide) fuel []

end KeyhiveEval.Beekem
