/-
**Members and leaves correspond one to one.**

`Bijective tree` says that every member has the leaf that the map gives it and every leaf is the leaf
of its own member. Two things break it, and both happen in runs of honest replicas:

* an add of a member that the tree already holds — concurrent adds of one member, or an add that is
  decided on a tree which does not show a pending one — leaves the old leaf behind
  (`concurrent_adds_leave_an_orphan`);
* a remove blanks, at the end of its epoch, the leaf that its author has recorded, and by then another
  member may sit there.

`unambiguous` rules the two out, and in every run that keeps to it the correspondence holds
in every state (`bijective_of_unambiguous`). Within an epoch the leaves that are being sorted are
apart: `Matched tree pending` is the correspondence with the members of `pending` left out.
-/

import KeyhiveEval.Beekem.Sample

namespace KeyhiveEval.Beekem

open Std Stateful

namespace BeeKem

/-- **The correspondence of members and leaves.** -/
structure Bijective (tree : BeeKem) : Prop where
  /-- Every member has the leaf that the map gives it. -/
  image : ∀ (id : MemberId) (idx : Nat), tree.idToLeafIdx[id]? = some idx →
    idx < tree.nextLeafIdx ∧ ∃ leaf, tree.leaves[idx]? = some (some leaf) ∧ leaf.id = id
  /-- Every leaf is the leaf of its member. -/
  leaf : ∀ (idx : Nat) (leaf : LeafNode), tree.leaves[idx]? = some (some leaf) →
    tree.idToLeafIdx[leaf.id]? = some idx
  beyond : ∀ idx : Nat, tree.nextLeafIdx ≤ idx → idx < tree.leaves.length →
    tree.leaves[idx]? = some none
  leaves : tree.leaves.length = tree.treeSize.leafCount
  inner : tree.innerNodes.length = tree.treeSize.innerNodeCount

def memberIds (nodes : List LeafNode) : List MemberId := nodes.map fun node => node.id

/-- The correspondence, apart from the members of `pending`, who have no leaf. -/
structure Matched (tree : BeeKem) (pending : List LeafNode) : Prop where
  image : ∀ (id : MemberId) (idx : Nat), tree.idToLeafIdx[id]? = some idx →
    id ∉ memberIds pending →
    idx < tree.nextLeafIdx ∧ ∃ leaf, tree.leaves[idx]? = some (some leaf) ∧ leaf.id = id
  leaf : ∀ (idx : Nat) (leaf : LeafNode), tree.leaves[idx]? = some (some leaf) →
    tree.idToLeafIdx[leaf.id]? = some idx ∧ idx < tree.nextLeafIdx ∧ leaf.id ∉ memberIds pending
  nodup : (memberIds pending).Nodup

variable {tree : BeeKem} {h : Nat}

theorem Matched.bijective (shaped : tree.Shaped h)
    (matched : tree.Matched []) : tree.Bijective where
  image id idx present := matched.image id idx present (by simp [memberIds])
  leaf idx leaf found := (matched.leaf idx leaf found).1
  beyond idx high bound := by
    rw [List.getElem?_eq_getElem bound]
    cases found : tree.leaves[idx] with
    | none => rfl
    | some leaf =>
      have := (matched.leaf idx leaf (by rw [List.getElem?_eq_getElem bound, found])).2.1
      omega
  leaves := by rw [shaped.leaves, shaped.size, leafCount_ofHeight]
  inner := by rw [shaped.inner, shaped.size, innerNodeCount_ofHeight]

variable {pending : List LeafNode}

theorem Matched.perm {pending' : List LeafNode}
    (matched : tree.Matched pending) (perm : pending'.Perm pending) : tree.Matched pending' := by
  have ids : (memberIds pending').Perm (memberIds pending) := perm.map _
  refine ⟨fun id idx present absent => ?_, fun idx leaf found => ?_, ids.nodup_iff.mpr matched.nodup⟩
  · exact matched.image id idx present (mt ids.mem_iff.mpr absent)
  · obtain ⟨present, low, absent⟩ := matched.leaf idx leaf found
    exact ⟨present, low, mt ids.mem_iff.mp absent⟩

/-! ### Pushing -/

variable {idx : Nat}

/-- Growing the tree adds blank leaves only. -/
theorem leaves_grown_eq_some {leaf : LeafNode} :
    (tree.grown h).leaves[idx]? = some (some leaf) ↔ tree.leaves[idx]? = some (some leaf) := by
  unfold grown
  split
  · rfl
  · rw [List.getElem?_append]
    split
    · rfl
    · rename_i high
      rw [List.getElem?_eq_none (Nat.le_of_not_lt high), List.getElem?_replicate]
      split <;> simp

theorem leaves_pushed (shaped : tree.Shaped h)
    (room : tree.nextLeafIdx < 2 ^ 30) (id : MemberId) (pk : NodeKey) (idx : Nat) (leaf : LeafNode) :
    (tree.pushed h id pk).leaves[idx]? = some (some leaf)
      ↔ (idx = tree.nextLeafIdx ∧ leaf = ⟨id, pk⟩) ∨
        (idx ≠ tree.nextLeafIdx ∧ tree.leaves[idx]? = some (some leaf)) := by
  show ((tree.grown h).leaves.set tree.nextLeafIdx _)[idx]? = _ ↔ _
  have bound : tree.nextLeafIdx < (tree.grown h).leaves.length := by
    rw [(shaped.grown room).leaves]
    exact lt_pushHeight shaped
  rw [List.getElem?_set]
  by_cases here : tree.nextLeafIdx = idx
  · rw [if_pos here, if_pos bound]
    simp [here, eq_comm]
  · rw [if_neg here, leaves_grown_eq_some]
    simp [Ne.symm here]

theorem Matched.pushed {node : LeafNode}
    (shaped : tree.Shaped h) (room : tree.nextLeafIdx < 2 ^ 30)
    (matched : tree.Matched (node :: pending)) :
    (tree.pushed h node.id node.pk).Matched pending := by
  have nodup := List.nodup_cons.mp matched.nodup
  have lookup : ∀ id : MemberId, (tree.pushed h node.id node.pk).idToLeafIdx[id]?
      = if node.id = id then some tree.nextLeafIdx else tree.idToLeafIdx[id]? := fun id => by
    show (tree.idToLeafIdx.insert node.id tree.nextLeafIdx)[id]? = _
    simp only [ExtTreeMap.getElem?_insert, LawfulEqCmp.compare_eq_iff_eq]
  refine ⟨fun id idx present absent => ?_, fun idx leaf found => ?_, nodup.2⟩
  · rw [lookup] at present
    split at present
    · rename_i same
      obtain rfl := Option.some.inj present
      refine ⟨Nat.lt_succ_self _, node, ?_, same⟩
      exact (leaves_pushed shaped room _ _ _ _).mpr (.inl ⟨rfl, rfl⟩)
    · rename_i other
      have outside : id ∉ memberIds (node :: pending) := by
        simp only [memberIds, List.map_cons, List.mem_cons, not_or] at absent ⊢
        exact ⟨Ne.symm other, absent⟩
      obtain ⟨low, leaf, found, same⟩ := matched.image id idx present outside
      exact ⟨Nat.lt_succ_of_lt low, leaf,
        (leaves_pushed shaped room _ _ _ _).mpr (.inr ⟨low.ne, found⟩), same⟩
  · rw [lookup]
    rcases (leaves_pushed shaped room _ _ _ _).mp found with ⟨rfl, rfl⟩ | ⟨-, found⟩
    · exact ⟨if_pos rfl, Nat.lt_succ_self _, nodup.1⟩
    · obtain ⟨present, low, outside⟩ := matched.leaf idx leaf found
      simp only [memberIds, List.map_cons, List.mem_cons, not_or] at outside
      exact ⟨by rw [if_neg (Ne.symm outside.1), present], Nat.lt_succ_of_lt low, outside.2⟩

variable {id : MemberId}

theorem Matched.fresh (matched : tree.Matched [])
    (absent : tree.idToLeafIdx[id]? = none) (pk : NodeKey) : tree.Matched [⟨id, pk⟩] := by
  refine ⟨fun other idx present _ => ?_, fun idx leaf found => ?_, by simp [memberIds]⟩
  · exact matched.image other idx present (by simp [memberIds])
  · obtain ⟨present, low, -⟩ := matched.leaf idx leaf found
    refine ⟨present, low, ?_⟩
    simp only [memberIds, List.map_cons, List.map_nil, List.mem_singleton]
    rintro rfl
    rw [absent] at present
    simp at present

/-! ### Removing -/

variable {tree' : BeeKem}

theorem Matched.removed {lIdx : Nat}
    {removedKeys : List ShareKey} (shaped : tree.Shaped h) (matched : tree.Matched [])
    (removes : tree.removeId id = .ok ((lIdx, removedKeys), tree')) : tree'.Matched [] := by
  obtain ⟨-, lookup, stop, nodes, collected, -, -, rfl⟩ := shaped.removeId_ok removes
  have gone : ∀ (idx : Nat) (leaf : LeafNode), (tree.leaves.set lIdx none)[idx]? = some (some leaf) →
      idx ≠ lIdx ∧ tree.leaves[idx]? = some (some leaf) := by
    intro idx leaf found
    rw [List.getElem?_set] at found
    split at found
    · split at found <;> simp at found
    · exact ⟨Ne.symm (by assumption), found⟩
  have erased : ∀ other : MemberId, (tree.idToLeafIdx.erase id)[other]?
      = if id = other then none else tree.idToLeafIdx[other]? := fun other => by
    simp only [ExtTreeMap.getElem?_erase, LawfulEqCmp.compare_eq_iff_eq]
  refine ⟨fun other idx present _ => ?_, fun idx leaf found => ?_, by simp [memberIds]⟩
  · rw [erased] at present
    split at present
    · simp at present
    · rename_i different
      obtain ⟨low, leaf, found, rfl⟩ := matched.image other idx present (by simp [memberIds])
      have apart : lIdx ≠ idx := by
        rintro rfl
        obtain ⟨-, leaf', found', same⟩ := matched.image id lIdx lookup (by simp [memberIds])
        rw [found] at found'
        obtain rfl := Option.some.inj (Option.some.inj found')
        exact different same.symm
      have kept : (tree.leaves.set lIdx none)[idx]? = some (some leaf) := by
        rw [List.getElem?_set_ne apart, found]
      refine ⟨?_, leaf, kept, rfl⟩
      by_contra high
      have := collected.blank idx (Nat.le_of_not_lt high) low
      rw [kept] at this
      simp at this
  · obtain ⟨apart, old⟩ := gone idx leaf found
    obtain ⟨present, low, -⟩ := matched.leaf idx leaf old
    have different : id ≠ leaf.id := by
      rintro rfl
      rw [lookup] at present
      exact apart (Option.some.inj present).symm
    refine ⟨by rw [erased, if_neg different, present], ?_, by simp [memberIds]⟩
    by_contra high
    have := collected.blank idx (Nat.le_of_not_lt high) low
    rw [found] at this
    simp at this

/-! ### The end of an epoch -/

theorem Matched.blanked
    (matched : tree.Matched pending) (blank : tree.leaves[idx]? = some none) :
    (tree.withBlankedLeaf h idx).Matched pending ∧
      (tree.withBlankedLeaf h idx).leaves = tree.leaves := by
  have same : tree.leaves.set idx none = tree.leaves := by
    obtain ⟨bound, value⟩ := List.getElem?_eq_some_iff.mp blank
    rw [← value]
    exact List.set_getElem_self bound
  refine ⟨⟨fun id other => ?_, fun other leaf => ?_, matched.nodup⟩, same⟩
  · show _ → _ → _ ∧ ∃ leaf, (tree.leaves.set idx none)[other]? = _ ∧ _
    rw [same]
    exact matched.image id other
  · show (tree.leaves.set idx none)[other]? = _ → _
    rw [same]
    exact matched.leaf other leaf

theorem Matched.popped {found : Option LeafNode} (matched : tree.Matched pending) (next : tree.nextLeafIdx = idx + 1)
    (read : tree.leaves[idx]? = some found) :
    ({ tree.withBlankedLeaf h idx with nextLeafIdx := idx } : BeeKem).Matched
      (pending ++ found.toList) := by
  have old : ∀ (other : Nat) (leaf : LeafNode), (tree.leaves.set idx none)[other]? = some (some leaf) →
      other ≠ idx ∧ tree.leaves[other]? = some (some leaf) := by
    intro other leaf present
    rw [List.getElem?_set] at present
    split at present
    · split at present <;> simp at present
    · exact ⟨Ne.symm (by assumption), present⟩
  have ids : memberIds (pending ++ found.toList) = memberIds pending ++ memberIds found.toList :=
    List.map_append
  refine ⟨fun id other present absent => ?_, fun other leaf present => ?_, ?_⟩
  · rw [ids, List.mem_append, not_or] at absent
    obtain ⟨low, leaf, here, rfl⟩ := matched.image id other present absent.1
    have apart : idx ≠ other := by
      rintro rfl
      obtain rfl := Option.some.inj (read.symm.trans here)
      exact absent.2 (by simp [memberIds])
    refine ⟨?_, leaf, ?_, rfl⟩
    · show other < idx
      omega
    · show (tree.leaves.set idx none)[other]? = _
      rw [List.getElem?_set_ne apart, here]
  · obtain ⟨apart, here⟩ := old other leaf present
    obtain ⟨lookup, low, outside⟩ := matched.leaf other leaf here
    refine ⟨lookup, ?_, ?_⟩
    · show other < idx
      omega
    · rw [ids, List.mem_append, not_or]
      refine ⟨outside, fun member => ?_⟩
      cases found with
      | none => simp [memberIds] at member
      | some last =>
        have same : leaf.id = last.id := by simpa [memberIds] using member
        have := (matched.leaf idx last read).1
        rw [← same, lookup] at this
        exact apart (Option.some.inj this)
  · rw [ids, List.nodup_append']
    cases found with
    | none => simpa [memberIds] using matched.nodup
    | some last =>
      refine ⟨matched.nodup, by simp [memberIds], ?_⟩
      have := (matched.leaf idx last read).2.2
      simpa [memberIds, List.disjoint_singleton] using this

theorem Matched.sorted {addedIds : ExtTreeSet MemberId}
    {removedIds : List (MemberId × Nat)} (shaped : tree.Shaped h) (matched : tree.Matched [])
    (free : ∀ entry ∈ removedIds, ∀ leaf, tree.leaves[entry.2]? ≠ some (some leaf))
    (sorts : tree.sortLeavesAndBlankPathsForConcurrentMembershipChanges addedIds removedIds
      = .ok tree') : tree'.Matched [] := by
  obtain ⟨blanked, popped, leavesToSort, blanks, pops, pushes⟩ := sortLeaves_ok_iff.mp sorts
  have first : blanked.Shaped h ∧ blanked.Matched [] := by
    have all := blankRemoved_induct
      (motive := fun now => now.Shaped h ∧ now.Matched [] ∧ now.leaves = tree.leaves)
      (fun entry member before after => ?_) ⟨shaped, matched, rfl⟩ blanks
    · exact ⟨all.1, all.2.1⟩
    · rintro ⟨shaped, matched, same⟩ step
      obtain ⟨within, rfl⟩ := shaped.blankLeafAndPath_ok step
      have blank : before.leaves[entry.2]? = some none := by
        obtain ⟨value, found⟩ : ∃ value, before.leaves[entry.2]? = some value :=
          ⟨_, List.getElem?_eq_getElem (by rw [shaped.leaves]; exact within)⟩
        cases value with
        | none => exact found
        | some leaf => exact absurd (same ▸ found) (free entry member leaf)
      have kept := matched.blanked (h := h) blank
      exact ⟨shaped.withBlankedLeaf _, kept.1, kept.2.trans same⟩
  have second : popped.Shaped h ∧ popped.Matched leavesToSort := by
    refine popAdded_induct (motive := fun now acc => now.Shaped h ∧ now.Matched acc)
      (fun before idx found after acc => ?_) rfl first pops
    rintro ⟨shaped, matched⟩ next read step
    obtain ⟨within, rfl⟩ := shaped.blankLeafAndPath_ok step
    exact ⟨{ shaped.withBlankedLeaf _ with next := within.le },
      matched.popped next (leaf_ok_iff.mp read)⟩
  have third := pushLeaves_induct
    (motive := fun now pending => ∃ h', now.Shaped h' ∧ now.Matched pending)
    (fun before node rest idx after => ?_)
    ⟨h, second.1, second.2.perm (perm_sortLeaves leavesToSort)⟩ pushes
  · exact third.elim fun _ both => both.2
  · rintro ⟨h', shaped, matched⟩ step
    obtain ⟨room, -, rfl⟩ := shaped.pushLeaf_ok step
    exact ⟨_, shaped.pushed room _ _, matched.pushed shaped room⟩

/-! ### Paths -/

theorem Matched.rekeyedLeaf {old : LeafNode}
    (matched : tree.Matched []) (lookup : tree.idToLeafIdx[id]? = some idx)
    (present : tree.leaves[idx]? = some (some old)) (pk : NodeKey)
    (nodes : List (Option InnerNode)) (encrypter : Option Nat) :
    ({ tree with
      leaves := tree.leaves.set idx (some ⟨id, pk⟩)
      innerNodes := nodes
      currentSecretEncrypterLeafIdx := encrypter } : BeeKem).Matched [] := by
  have bound := (List.getElem?_eq_some_iff.mp present).1
  refine ⟨fun other idx' lookup' _ => ?_, fun idx' leaf found => ?_, by simp [memberIds]⟩
  · obtain ⟨low, leaf, found, rfl⟩ := matched.image other idx' lookup' (by simp [memberIds])
    refine ⟨low, ?_⟩
    show ∃ leaf', (tree.leaves.set idx _)[idx']? = _ ∧ _
    rw [List.getElem?_set]
    by_cases here : idx = idx'
    · subst here
      rw [if_pos rfl, if_pos bound]
      obtain ⟨-, leaf', found', same⟩ := matched.image id idx lookup (by simp [memberIds])
      obtain rfl := Option.some.inj (Option.some.inj (found.symm.trans found'))
      exact ⟨_, rfl, same.symm⟩
    · rw [if_neg here]
      exact ⟨leaf, found, rfl⟩
  · replace found : (tree.leaves.set idx _)[idx']? = some (some leaf) := found
    rw [List.getElem?_set] at found
    by_cases here : idx = idx'
    · subst here
      rw [if_pos rfl, if_pos bound] at found
      obtain rfl := Option.some.inj (Option.some.inj found)
      exact ⟨lookup, (matched.image id idx lookup (by simp [memberIds])).1, by simp [memberIds]⟩
    · rw [if_neg here] at found
      exact matched.leaf idx' leaf found

theorem Matched.applied {newPath : PathChange}
    (shaped : tree.Shaped h) (matched : tree.Matched [])
    (applies : tree.applyPath newPath = .ok tree') : tree'.Matched [] := by
  rcases shaped.applyPath_ok applies with ⟨-, rfl⟩ | ⟨leafIdx, old, lookup, present, rfl⟩
  · exact matched
  · unfold appliedPath
    split
    · exact matched.rekeyedLeaf lookup present _ _ _
    · exact matched.rekeyedLeaf lookup present _ _ _

variable {pk : ShareKey}

theorem Matched.rekeyed
    (matched : tree.Matched []) (rekeyed : Rekeyed id pk tree tree') : tree'.Matched [] := by
  obtain ⟨idx, nodes, encrypter, lookup, -, rfl⟩ := rekeyed
  obtain ⟨-, leaf, present, -⟩ := matched.image id idx lookup (by simp [memberIds])
  exact matched.rekeyedLeaf lookup present _ _ _

theorem new_matched {docId : TreeId}
    (new : BeeKem.new docId id pk = .ok tree) : tree.Shaped 1 ∧ tree.Matched [] := by
  obtain ⟨tree', created, shaped, leaves, -, next, map, -⟩ := new_ok docId id pk
  obtain rfl := Except.ok.inj (new.symm.trans created)
  refine ⟨shaped, fun other idx present _ => ?_, fun idx leaf found => ?_, by simp [memberIds]⟩
  · rw [map] at present
    simp only [ExtTreeMap.getElem?_insert, LawfulEqCmp.compare_eq_iff_eq] at present
    split at present
    · rename_i same
      obtain rfl := Option.some.inj present
      exact ⟨by omega, ⟨id, .shareKey pk⟩, by rw [leaves]; rfl, same⟩
    · simp at present
  · rw [leaves] at found
    match idx with
    | 0 =>
      obtain rfl := Option.some.inj (Option.some.inj found)
      refine ⟨?_, by omega, by simp [memberIds]⟩
      rw [map]
      simp
    | 1 => simp at found
    | idx + 2 => simp at found

end BeeKem

/-! ### Runs -/

/-- **No operation is ambiguous about a place**: an add finds its member absent, and at the end of an
epoch no member sits on a leaf that a remove has recorded. -/
def unambiguous : Conditions where
  op tree op :=
    match op with
    | .add addedId .. => tree.containsId addedId = false
    | _ => True
  epoch tree epoch :=
    ∀ entry ∈ Cgka.removedIds epoch, ∀ leaf, tree.leaves[entry.2]? ≠ some (some leaf)

/-- The tree has a shape, and its members and leaves correspond. -/
def Placed (tree : BeeKem) : Prop := (∃ h, tree.Shaped h) ∧ tree.Matched []

theorem placed_invariant (S : Suite) : TreeInvariant S unambiguous Placed where
  new docId id pk tree new := ⟨⟨1, (BeeKem.new_matched new).1⟩, (BeeKem.new_matched new).2⟩
  apply tree op tree' placed meets applies := by
    refine ⟨(shaped_invariant S).apply tree op tree' placed.1 trivial applies, ?_⟩
    obtain ⟨⟨h, shaped⟩, matched⟩ := placed
    cases op with
    | add addedId pk leafIndex predecessors addPredecessors docId =>
      obtain ⟨⟨idx, pushed⟩, pushes, same⟩ := except_bind_ok_iff.mp applies
      obtain rfl := except_pure_ok_iff.mp same
      obtain ⟨room, -, rfl⟩ := shaped.pushLeaf_ok pushes
      have absent : tree.idToLeafIdx[addedId]? = none :=
        ExtTreeMap.getElem?_eq_none_of_contains_eq_false meets
      exact (matched.fresh absent _).pushed shaped room
    | remove id leafIdx removedKeys predecessors docId =>
      obtain ⟨⟨⟨idx, keys⟩, removed⟩, removes, same⟩ := except_bind_ok_iff.mp applies
      obtain rfl := except_pure_ok_iff.mp same
      exact matched.removed shaped removes
    | update id newPath predecessors docId => exact matched.applied shaped applies
  sort tree epoch tree' placed meets sorts := by
    refine ⟨(shaped_invariant S).sort tree epoch tree' placed.1 trivial sorts, ?_⟩
    obtain ⟨⟨h, shaped⟩, matched⟩ := placed
    exact matched.sorted shaped meets sorts
  encrypt tree id pk sks csprng placed := by
    obtain ⟨⟨h, shaped⟩, matched⟩ := placed
    refine (shaped.encryptPath_frame S.toCrypto id pk sks csprng).mono (fun _ tree' rekeyed => ?_)
      fun _ tree' outcome => ?_
    · exact ⟨⟨h, shaped.rekeyed rekeyed⟩, matched.rekeyed rekeyed⟩
    · rcases outcome with rfl | rekeyed
      · exact ⟨⟨h, shaped⟩, matched⟩
      · exact ⟨⟨h, shaped.rekeyed rekeyed⟩, matched.rekeyed rekeyed⟩

section Runs

variable {S : Suite} {Cr : Type} [ContentRef Cr] {docId : TreeId} {ownerId : MemberId}
  {ownerPk : ShareKey} {signer : Signer} {first : Cgka}

/-- **In a run without ambiguous operations members and leaves correspond in every state.** -/
theorem bijective_of_unambiguous (created : Cgka.new S docId ownerId ownerPk signer = .ok first)
    {w : World Cr}
    (reached : World.Reachable S first (fun w cgka call => unambiguous.OnCall S w cgka call) w) :
    ∀ cgka ∈ w.replicas, cgka.tree.Bijective := by
  intro cgka member
  obtain ⟨⟨h, shaped⟩, matched⟩ :=
    (reached.treeInvariant (placed_invariant S) created fun _ _ _ meets => meets).replicas cgka
      member
  exact matched.bijective shaped

end Runs

/-! ### A run with a replay -/

namespace Sample

/-- Whether operations that are applied one after the other are known, or find absent whom they add. -/
def okOps : List SignedOp → Cgka → Bool
  | [], _ => true
  | op :: rest, cgka =>
    (cgka.opsGraph.containsOpHash (suite.hashOp op) || match op.payload with
      | .add addedId .. => !cgka.tree.containsId addedId
      | _ => true) &&
    match Cgka.applyOperation suite op cgka with
    | .ok _ cgka' => okOps rest cgka'
    | .error _ _ => true

/-- Whether that is so in epochs without removes. -/
def okEpochs : List CgkaEpoch → Cgka → Bool
  | [], _ => true
  | epoch :: rest, cgka => okOps epoch cgka && (Cgka.removedIds epoch).isEmpty &&
    match Cgka.applyEpoch suite epoch cgka with
    | .ok _ cgka' => okEpochs rest cgka'
    | .error _ _ => true

def okReplay (cgka : Cgka) : Bool :=
  cgka.opsGraph.topsortGraph.toOption.all fun epochs => (Cgka.rebuildStart suite cgka).toOption.all (okEpochs epochs)

/-- An add that needs no replay, an update, or a concurrent change of the membership that is received. -/
def okCall (w : World Unit) (cgka : Cgka) : Call Unit → Bool
  | .add .. => !cgka.shouldReplay
  | .update .. => okReplay cgka
  | .mergeConcurrentOperation op => w.published[op]?.all fun entry =>
      !cgka.opsGraph.headsContainedIn entry.1.payload.predecessors && !entry.1.payload.isUpdate
  | .withNewOwner .. => true
  | _ => false

theorem onOps_of_okOps {ops : List SignedOp} {cgka : Cgka} (ok : okOps ops cgka = true) :
    unambiguous.OnOps suite ops cgka := by
  induction ops generalizing cgka with
  | nil => trivial
  | cons op rest ih =>
    obtain ⟨absent, later⟩ := Bool.and_eq_true_iff.mp ok
    refine ⟨fun unknown => ?_, fun cgka' applies => ih (by rwa [applies] at later)⟩
    rw [unknown, Bool.false_or] at absent
    cases payload : op.payload with
    | add addedId =>
      rw [payload] at absent
      exact (Bool.not_eq_true' _).mp absent
    | remove => trivial
    | update => trivial

theorem onEpochs_of_okEpochs {epochs : List CgkaEpoch} {cgka : Cgka} (ok : okEpochs epochs cgka = true) :
    unambiguous.OnEpochs suite epochs cgka := by
  induction epochs generalizing cgka with
  | nil => trivial
  | cons epoch rest ih =>
    obtain ⟨here, later⟩ := Bool.and_eq_true_iff.mp ok
    obtain ⟨ops, noRemove⟩ := Bool.and_eq_true_iff.mp here
    refine ⟨onOps_of_okOps ops, fun _ _ _ entry removed => ?_, fun cgka' applies => ih (by rwa [applies] at later)⟩
    rw [List.isEmpty_iff.mp noRemove] at removed
    cases removed

theorem onCall_of_okCall (w : World Unit) (cgka : Cgka) (call : Call Unit) (ok : okCall w cgka call = true) :
    unambiguous.OnCall suite w cgka call := by
  cases call with
  | add id pk signer =>
    have current : cgka.shouldReplay = false := by simpa [okCall] using ok
    refine fun absent => ⟨fun due => by simp [current] at due, fun cgka' replays => ?_⟩
    rw [Cgka.replayIfNeeded_eq, if_neg (by simp [current])] at replays
    obtain ⟨-, rfl⟩ := pure_ok_iff.mp replays
    exact absent
  | update newPk newSk signer csprng =>
    refine ⟨fun _ epochs start sorts starts => onEpochs_of_okEpochs ?_, fun _ _ => trivial⟩
    simpa [okCall, okReplay, Except.toOption, sorts, starts] using ok
  | mergeConcurrentOperation op =>
    intro entry found _ _
    rw [okCall, found] at ok
    obtain ⟨apart, structural⟩ := Bool.and_eq_true_iff.mp ok
    rw [if_neg (by simpa using apart)]
    exact fun _ isUpdate => by simp [isUpdate] at structural
  | withNewOwner id ownerSks => trivial
  | remove | newAppSecretFor | decryptionKeyFor | merge => simp [okCall] at ok

end Sample

/-- Two replicas add members 3 and 4 concurrently. The first receives both, and replays them before an update. -/
def replayedAdds : List (Nat × Call Unit) :=
  [(0, .add (Sample.member 2) (Sample.key 0x20) (Sample.signer 2)),
   (0, .withNewOwner (Sample.member 2) (Sample.secrets [0x20])),
   (0, .add (Sample.member 3) (Sample.key 0x30) (Sample.signer 3)),
   (1, .add (Sample.member 4) (Sample.key 0x40) (Sample.signer 4)),
   (0, .mergeConcurrentOperation 3),
   (0, .update (Sample.key 0x50) (Sample.secret 0x50) (Sample.signer 5) (Sample.rng 0x60))]

theorem bijective_after_replay :
    ∃ (first : Cgka) (w : World Unit), Sample.create = .ok first ∧
      World.Reachable Sample.suite first (fun w cgka call => unambiguous.OnCall Sample.suite w cgka call) w ∧
      w.replicas.map (fun cgka => cgka.tree.memberCount) = [4, 3] ∧ ∀ cgka ∈ w.replicas, cgka.tree.Bijective := by
  obtain ⟨first, w, created, reached, counts⟩ := Sample.reached replayedAdds
    (fun w => w.replicas.map (fun cgka => cgka.tree.memberCount) == [4, 3]) Sample.onCall_of_okCall
    (by decide +kernel)
  exact ⟨first, w, created, reached, by simpa using counts, bijective_of_unambiguous created reached⟩

/-! ### What breaks the correspondence -/

theorem BeeKem.not_bijective_of_twice {tree : BeeKem} {i j : Nat} {leaf leaf' : LeafNode}
    (here : tree.leaves[i]? = some (some leaf)) (there : tree.leaves[j]? = some (some leaf'))
    (same : leaf.id = leaf'.id) (apart : i ≠ j) : ¬ tree.Bijective := by
  intro bijective
  have place := bijective.leaf i leaf here
  rw [same, bijective.leaf j leaf' there] at place
  exact apart (Option.some.inj place).symm

def concurrentAdds : List (Nat × Call Unit) :=
  [(0, .add (Sample.member 2) (Sample.key 0x20) (Sample.signer 2)),
   (0, .withNewOwner (Sample.member 2) (Sample.secrets [0x20])),
   (0, .add (Sample.member 3) (Sample.key 0x30) (Sample.signer 3)),
   (1, .add (Sample.member 3) (Sample.key 0x30) (Sample.signer 4)),
   (0, .mergeConcurrentOperation 3),
   (0, .add (Sample.member 4) (Sample.key 0x40) (Sample.signer 5))]

/-- **Concurrent adds of one member leave an orphan**: the replay pushes a leaf for each of them, and
the map knows the last one only. -/
theorem concurrent_adds_leave_an_orphan :
    ∃ (first : Cgka) (w : World Unit) (cgka : Cgka), Sample.create = .ok first ∧
      World.Reachable Sample.suite first (fun _ _ _ => True) w ∧ cgka ∈ w.replicas ∧
      ¬ cgka.tree.Bijective := by
  let idAt (cgka : Cgka) (idx : Nat) : Option MemberId :=
    (cgka.tree.leaves[idx]?).join.map fun leaf => leaf.id
  obtain ⟨first, w, created, reached, twice⟩ := Sample.reachedFreely concurrentAdds
    (fun w => w.replicas.any fun cgka =>
      idAt cgka 2 == some (Sample.member 3) && idAt cgka 3 == some (Sample.member 3))
    (by decide +kernel)
  obtain ⟨cgka, member, twice⟩ := List.any_eq_true.mp twice
  obtain ⟨here, there⟩ := Bool.and_eq_true_iff.mp twice
  obtain ⟨leaf, here, id⟩ := Option.map_eq_some_iff.mp (eq_of_beq here)
  obtain ⟨leaf', there, id'⟩ := Option.map_eq_some_iff.mp (eq_of_beq there)
  exact ⟨first, w, cgka, created, reached, member,
    BeeKem.not_bijective_of_twice (Option.join_eq_some_iff.mp here)
      (Option.join_eq_some_iff.mp there) (id.trans id'.symm) (by decide)⟩

end KeyhiveEval.Beekem
