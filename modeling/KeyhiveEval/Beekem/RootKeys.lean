/-
**The key of the root and who wrote it.**

A member that meets the path of the encrypter goes on to the root by ratcheting. That gives the secret of the root only if
the path of the encrypter still holds what one encryption has written (`RootKnown`).

* Pushing, removing and sorting blank the root and forget the encrypter.
* `encryptPath` writes the whole path.
* `applyPath` records the sender whenever the root is left with one version. The rest of the path may have kept versions
  that the change does not know: the state is right exactly if the change replaces all of them (`Whole`).

`Reached.rootKnown` — the trees of a run all of whose changes are whole, and what a change that is not whole leaves.
-/

import KeyhiveEval.Beekem.ConcurrentPaths

namespace KeyhiveEval.Beekem

open Std PerfectTree Stateful

namespace BeeKem

/-- **The ratchet of a secret**, alone in a store and encrypted with that secret. -/
def Ratchets (𝒞 : Crypto) (sk : ShareSecretKey) (store : InnerNode) : Prop :=
  ∃ origin childIdx csprng csprng', encryptNewSecretStoreForParent 𝒞 origin childIdx (sk.shareKey 𝒞) sk
    ((sk.ratchetForward 𝒞).shareKey 𝒞) (sk.ratchetForward 𝒞) csprng = .ok (store, csprng')

/-- The nodes of a path hold one version each, whose secret is the ratchet of the one below. -/
def Climbs (𝒞 : Crypto) (nodes : List (Option InnerNode)) (sk : ShareSecretKey) (path : List Nat) : Prop :=
  ∀ (k j : Nat), path[k]? = some j → ∃ store version, nodes[j]? = some (some store) ∧ store.versions = [version] ∧
    version.pk = (sk.ratchetNForward 𝒞 (k + 1)).shareKey 𝒞 ∧ Ratchets 𝒞 (sk.ratchetNForward 𝒞 k) store

/-- **The key of the root and its author are known together.** -/
structure RootKnown (𝒞 : Crypto) (tree : BeeKem) : Prop where
  encrypter : tree.hasRootKey = .ok true ↔ tree.currentSecretEncrypterLeafIdx.isSome = true
  path : ∀ i, tree.currentSecretEncrypterLeafIdx = some i → ∃ id sk path,
    tree.leaves[i]? = some (some ⟨id, .shareKey (sk.shareKey 𝒞)⟩) ∧ directPath (.leaf i) tree.treeSize = .ok path ∧
    Climbs 𝒞 tree.innerNodes sk path

/-- A change removes all the versions of a node. -/
def Replaces (nodes : List (Option InnerNode)) (change : PathChange) (j : Nat) : Prop :=
  ∀ store, nodes[j]? = some (some store) → ∀ version ∈ store.versions, version.pk ∈ change.removedKeys

/-- **A change is whole for a tree**: if it still fits and replaces the root, it replaces the whole path and the key of
the leaf. -/
def Whole (tree : BeeKem) (change : PathChange) : Prop :=
  ∀ i leaf path r, tree.idToLeafIdx[change.leafId]? = some i → tree.leaves[i]? = some (some leaf) →
    tree.isValidPath change = .ok true → directPath (.leaf i) tree.treeSize = .ok path →
    root tree.treeSize = .inner r → Replaces tree.innerNodes change r →
      (∀ key ∈ leaf.pk.keys, key ∈ change.removedKeys) ∧ ∀ j ∈ path, Replaces tree.innerNodes change j

/-- **The trees of honest members.** A key that a member announces belongs to the secret that they hold for it, and a
change that is applied was made by a member. -/
inductive Reached (𝒞 : Crypto) (admits : BeeKem → PathChange → Prop) : BeeKem → Prop
  | new {docId id pk tree} : BeeKem.new docId id pk = .ok tree → Reached 𝒞 admits tree
  | push {tree id pk idx tree'} : Reached 𝒞 admits tree → tree.pushLeaf id pk = .ok (idx, tree') →
      Reached 𝒞 admits tree'
  | remove {tree id removed tree'} : Reached 𝒞 admits tree → tree.removeId id = .ok (removed, tree') →
      Reached 𝒞 admits tree'
  | sort {tree addedIds removedIds tree'} : Reached 𝒞 admits tree →
      tree.sortLeavesAndBlankPathsForConcurrentMembershipChanges addedIds removedIds = .ok tree' →
      Reached 𝒞 admits tree'
  | encrypt {tree id pk sks csprng pcsKey change tree'} : Reached 𝒞 admits tree →
      (∀ sk, sks[pk]? = some sk → sk.shareKey 𝒞 = pk) →
      encryptPath 𝒞 id pk sks csprng tree = .ok (pcsKey, change) tree' → Reached 𝒞 admits tree'
  | apply {tree sender id pk sks csprng pcsKey change sender' tree'} : Reached 𝒞 admits tree → Reached 𝒞 admits sender →
      (∀ sk, sks[pk]? = some sk → sk.shareKey 𝒞 = pk) →
      encryptPath 𝒞 id pk sks csprng sender = .ok (pcsKey, change) sender' → admits tree change →
      tree.applyPath change = .ok tree' → Reached 𝒞 admits tree'

/-! ### Trees without a root key -/

/-- The root is blank and nobody is on record for it. -/
structure Rootless (tree : BeeKem) (h : Nat) : Prop extends tree.Shaped h where
  blank : tree.innerNodes[innerIdx h 0]? = some none
  encrypter : tree.currentSecretEncrypterLeafIdx = none

variable {𝒞 : Crypto} {tree tree' : BeeKem} {h idx : Nat}

theorem RootKnown.of_rootless (rootless : tree.Rootless h) : tree.RootKnown 𝒞 := by
  refine ⟨?_, fun i recorded => ?_⟩
  · rw [rootless.hasRootKey_eq, rootless.encrypter, rootKeyed, rootless.blank]
    simp
  · rw [rootless.encrypter] at recorded
    cases recorded

theorem Shaped.rootless_withBlanked (shaped : tree.Shaped h) (within : idx < 2 ^ h) :
    (tree.withBlanked (above h 0 idx)).Rootless h where
  toShaped := shaped.withBlanked _
  blank := by
    show (blankAll _ _)[innerIdx h 0]? = some none
    rw [getElem?_blankAll, if_pos ⟨root_mem_above shaped.positive within,
      by rw [shaped.inner]; exact root_lt shaped.positive⟩]
  encrypter := rfl

theorem Shaped.rootless_pushed (shaped : tree.Shaped h) (room : tree.nextLeafIdx < 2 ^ 30) (id : MemberId)
    (pk : NodeKey) : (tree.pushed h id pk).Rootless (tree.pushHeight h) where
  toShaped := shaped.pushed room id pk
  blank := by
    have grown := shaped.grown room
    show (blankAll _ _)[innerIdx (tree.pushHeight h) 0]? = some none
    rw [getElem?_blankAll, if_pos ⟨root_mem_above grown.positive (lt_pushHeight shaped),
      by rw [grown.inner]; exact root_lt grown.positive⟩]
  encrypter := rfl

theorem Shaped.rootless_removed {id : MemberId} {removed : Nat × List ShareKey} (shaped : tree.Shaped h)
    (removes : tree.removeId id = .ok (removed, tree')) : tree'.Rootless h := by
  have shaped' := shaped.removed removes
  obtain ⟨-, -, stop, nodes, -, -, blank, rfl⟩ := shaped.removeId_ok removes
  exact ⟨shaped', blank, rfl⟩

/-- **The end of an epoch** leaves the tree alone or without a root key. -/
theorem Shaped.sorted_cases {addedIds : ExtTreeSet MemberId} {removedIds : List (MemberId × Nat)} (shaped : tree.Shaped h)
    (sorts : tree.sortLeavesAndBlankPathsForConcurrentMembershipChanges addedIds removedIds = .ok tree') :
    tree'.RootKnown 𝒞 ∨ tree' = tree := by
  -- The loops blank a leaf and its path or push one, and nothing else.
  let moved (now : BeeKem) : Prop := (∃ h', now.Rootless h') ∨ now = tree
  have blanked (before after : BeeKem) (i : Nat) (so : moved before) (blanks : before.blankLeafAndPath i = .ok after) :
      ∃ h', after.Rootless h' ∧ i < 2 ^ h' := by
    obtain ⟨h', shaped⟩ : ∃ h', before.Shaped h' := so.elim (fun ⟨h', rootless⟩ => ⟨h', rootless.toShaped⟩)
      fun same => ⟨h, same ▸ shaped⟩
    obtain ⟨within, rfl⟩ := shaped.blankLeafAndPath_ok blanks
    exact ⟨h', (shaped.setLeaf i none).rootless_withBlanked within, within⟩
  obtain ⟨first, second, leavesToSort, blanks, pops, pushes⟩ := sortLeaves_ok_iff.mp sorts
  have removed : moved first := by
    refine blankRemoved_induct (motive := moved) (fun entry _ before after so blanks => ?_) (.inr rfl) blanks
    obtain ⟨h', rootless, -⟩ := blanked before after _ so blanks
    exact .inl ⟨h', rootless⟩
  have popped : moved second := by
    refine popAdded_induct (motive := fun now _ => moved now)
      (fun before i found after _ so _ _ blanks => ?_) rfl removed pops
    obtain ⟨h', rootless, within⟩ := blanked before after _ so blanks
    exact .inl ⟨h', { rootless with next := within.le }⟩
  have pushed : moved tree' := by
    refine pushLeaves_induct (motive := fun now _ => moved now) (fun before node rest i after so pushed => ?_)
      popped pushes
    obtain ⟨h', shaped⟩ : ∃ h', before.Shaped h' := so.elim (fun ⟨h', rootless⟩ => ⟨h', rootless.toShaped⟩)
      fun same => ⟨h, same ▸ shaped⟩
    obtain ⟨room, -, rfl⟩ := shaped.pushLeaf_ok pushed
    exact .inl ⟨_, shaped.rootless_pushed room _ _⟩
  exact pushed.imp_left fun ⟨_, rootless⟩ => .of_rootless rootless

/-! ### Changes that a member has made -/

/-- A change of honest make: one secret, ratcheted from the leaf to the root. -/
structure Issued (𝒞 : Crypto) (change : PathChange) (h : Nat) (sk : ShareSecretKey) (stores : List InnerNode) :
    Prop where
  leaf : change.leafPk = .shareKey (sk.shareKey 𝒞)
  path : change.path = (above h 0 change.leafIdx).zip stores
  length : stores.length = h
  ratchets : ∀ (k : Nat) (store : InnerNode), stores[k]? = some store → Ratchets 𝒞 (sk.ratchetNForward 𝒞 k) store

theorem Ratchets.version {sk : ShareSecretKey} {store : InnerNode} (ratchets : Ratchets 𝒞 sk store) :
    ∃ version, store.versions = [version] ∧ version.pk = (sk.ratchetForward 𝒞).shareKey 𝒞 := by
  obtain ⟨origin, childIdx, csprng, csprng', made⟩ := ratchets
  obtain ⟨secrets, rfl⟩ := encryptNewSecretStoreForParent_ok made
  exact ⟨_, rfl, rfl⟩

theorem Stores.ratchets {k p j : Nat} {sk : ShareSecretKey} {csprng : Rng} {stores : List InnerNode} {store : InnerNode}
    (written : Stores 𝒞 tree k p (sk.shareKey 𝒞) sk csprng stores) (here : stores[j]? = some store) :
    Ratchets 𝒞 (sk.ratchetNForward 𝒞 j) store := by
  induction stores generalizing k p j sk csprng with
  | nil => simp at here
  | cons first rest ih =>
    obtain ⟨csprng', made, later⟩ := written
    cases j with
    | zero =>
      obtain rfl := Option.some.inj here
      exact ⟨tree, _, csprng, csprng', made⟩
    | succ j =>
      have above := ih (j := j) later here
      exact above

section Encrypted

variable {id : MemberId} {pk : ShareKey} {sks : ShareKeyMap} {csprng : Rng} {pcsKey : PcsKey} {change : PathChange}

theorem Shaped.issued (shaped : tree.Shaped h) (honest : ∀ sk, sks[pk]? = some sk → sk.shareKey 𝒞 = pk)
    (returns : encryptPath 𝒞 id pk sks csprng tree = .ok (pcsKey, change) tree') :
    ∃ sk stores, Issued 𝒞 change h sk stores := by
  obtain ⟨i, old, sk, stores, removed, -, -, secret, length, -, rfl, -, -, written⟩ := shaped.encryptPath_ok returns
  obtain rfl := honest sk secret
  exact ⟨sk, stores, rfl, rfl, length, fun k store here => written.ratchets here⟩

end Encrypted

/-! ### Applying a change -/

section Applied

theorem keys_getD_ofKeys {keys : List ShareKey} (other : NodeKey) (some : keys ≠ []) :
    ((NodeKey.ofKeys keys).getD other).keys = keys := by
  match keys with
  | [] => exact absurd rfl some
  | [_] => rfl
  | _ :: _ :: _ => rfl

/-- The key of a leaf after a merge has one key more than those that stay. -/
theorem length_keys_merge (old : NodeKey) (pk : ShareKey) (removed : List ShareKey) :
    (old.merge (.shareKey pk) removed).keys.length = (old.keys.filter fun key => key ∉ removed).length + 1 := by
  have sorted (kept : List ShareKey) :
      ((NodeKey.ofKeys (sortKeys ((NodeKey.shareKey pk).keys ++ kept))).getD (.shareKey pk)).keys.length
        = kept.length + 1 := by
    have length : (sortKeys ((NodeKey.shareKey pk).keys ++ kept)).length = kept.length + 1 := by
      rw [sortKeys, List.length_insertionSort]
      simp [NodeKey.keys]
    rw [keys_getD_ofKeys _ (List.ne_nil_of_length_eq_add_one length), length]
  cases old with
  | shareKey key =>
    unfold NodeKey.merge
    by_cases gone : key ∈ removed
    · simp [gone, NodeKey.keys]
    · simp only [gone, if_false, sorted]
      simp [NodeKey.keys, gone]
  | conflictKeys keys => exact sorted _

theorem merge_eq_shareKey_iff {old : NodeKey} {pk : ShareKey} {removed : List ShareKey} :
    (∃ key, old.merge (.shareKey pk) removed = .shareKey key) ↔ ∀ key ∈ old.keys, key ∈ removed := by
  constructor
  · rintro ⟨key, merged⟩
    have length := length_keys_merge old pk removed
    rw [merged] at length
    have none : (old.keys.filter fun key => key ∉ removed) = [] :=
      List.length_eq_zero_iff.mp (by simpa [NodeKey.keys] using length)
    intro key member
    simpa using List.filter_eq_nil_iff.mp none key member
  · exact fun gone => ⟨pk, merge_of_removed gone⟩

variable {change : PathChange} {sk : ShareSecretKey} {stores : List InnerNode}

/-- What a store leaves on a node: it is alone there exactly if the change replaces what was there. -/
theorem mergeInto_versions (removed : List ShareKey) (current : Option InnerNode) {store : InnerNode}
    {version : SecretStoreVersion} (single : store.versions = [version]) :
    ((mergeInto removed current store).versions.length = 1 ↔
        ∀ old, current = some old → ∀ version ∈ old.versions, version.pk ∈ removed) ∧
      0 < (mergeInto removed current store).versions.length ∧
      ((mergeInto removed current store).versions.length = 1 → mergeInto removed current store = store) := by
  cases current with
  | none => simp [mergeInto, single]
  | some old =>
    have versions : (mergeInto removed (some old) store).versions
        = (old.versions.filter fun version => version.pk ∉ removed) ++ [version] := by rw [← single]; rfl
    have none : (mergeInto removed (some old) store).versions.length = 1 ↔
        (old.versions.filter fun version => version.pk ∉ removed) = [] := by
      rw [versions, List.length_append, List.length_singleton, Nat.add_eq_right, List.length_eq_zero_iff]
    refine ⟨none.trans ?_, by simp [versions], fun one => ?_⟩
    · rw [List.filter_eq_nil_iff]
      simp
    · rw [none.mp one, List.nil_append, ← single] at versions
      exact congrArg SecretStore.mk versions

section Node

variable (shaped : tree.Shaped h) (issued : Issued 𝒞 change h sk stores) (within : change.leafIdx < 2 ^ h)

include shaped issued within

/-- **A node of the path after the change**: it has a version, and the one of the change alone exactly if the change
replaces what was there. -/
theorem Issued.node {k j : Nat} (here : (above h 0 change.leafIdx)[k]? = some j) :
    ∃ store, (mergeNodes change.removedKeys change.path tree.innerNodes)[j]? = some (some store) ∧
      (store.versions.length = 1 ↔ Replaces tree.innerNodes change j) ∧ 0 < store.versions.length ∧
      (Replaces tree.innerNodes change j → Ratchets 𝒞 (sk.ratchetNForward 𝒞 k) store) := by
  have bound : k < stores.length := by
    rw [issued.length, ← length_above h 0 change.leafIdx]
    exact (List.getElem?_eq_some_iff.mp here).1
  have member : (j, stores[k]) ∈ change.path := by
    rw [issued.path]
    refine List.mem_iff_getElem?.mpr ⟨k, ?_⟩
    rw [List.getElem?_zip_eq_some]
    exact ⟨here, List.getElem?_eq_getElem bound⟩
  have distinct : (change.path.map Prod.fst).Nodup := by
    rw [issued.path, List.map_fst_zip (by rw [length_above, issued.length])]
    exact nodup_above _ _ _
  have low : j < tree.innerNodes.length := by
    rw [shaped.inner]
    exact lt_of_mem_above (inside_leaf.mpr within) (by simpa using List.mem_of_getElem? here)
  have ratchets := issued.ratchets k _ (List.getElem?_eq_getElem bound)
  obtain ⟨version, single, -⟩ := ratchets.version
  obtain ⟨alone, some, same⟩ := mergeInto_versions change.removedKeys tree.innerNodes[j] single
  have replaces : Replaces tree.innerNodes change j ↔
      ∀ old, tree.innerNodes[j] = Option.some old → ∀ version ∈ old.versions, version.pk ∈ change.removedKeys := by
    unfold Replaces
    rw [List.getElem?_eq_getElem low]
    simp only [Option.some.injEq]
  refine ⟨mergeInto change.removedKeys tree.innerNodes[j] stores[k], ?_, alone.trans replaces.symm, some, fun gone => ?_⟩
  · rw [getElem?_mergeNodes, List.getElem?_eq_getElem low, Option.map_some, rewriteNode_of_mem _ distinct member]
  · rw [same (alone.mpr (replaces.mp gone))]
    exact ratchets

/-- The root has one version after the change exactly if the change replaces it. -/
theorem Issued.rootKeyed_iff :
    rootKeyed h (mergeNodes change.removedKeys change.path tree.innerNodes) = true ↔
      Replaces tree.innerNodes change (innerIdx h 0) := by
  obtain ⟨k, here⟩ := List.getElem?_of_mem (root_mem_above shaped.positive within)
  obtain ⟨store, there, alone, some, -⟩ := issued.node shaped within here
  rw [← alone]
  unfold rootKeyed
  rw [there]
  simp only [SecretStore.hasConflict, Bool.not_eq_true', decide_eq_false_iff_not]
  omega

end Node

def fitted (tree : BeeKem) (h : Nat) (old : LeafNode) (change : PathChange) : BeeKem :=
  { tree with
    leaves := tree.mergedLeaves change.leafIdx old change
    innerNodes := mergeNodes change.removedKeys change.path tree.innerNodes
    currentSecretEncrypterLeafIdx :=
      if rootKeyed h (mergeNodes change.removedKeys change.path tree.innerNodes) then some change.leafIdx else none }

theorem Issued.rootKnown_fitted_iff {old : LeafNode} (shaped : tree.Shaped h) (issued : Issued 𝒞 change h sk stores)
    (within : change.leafIdx < 2 ^ h) :
    (tree.fitted h old change).RootKnown 𝒞 ↔ (Replaces tree.innerNodes change (innerIdx h 0) →
      (∀ key ∈ old.pk.keys, key ∈ change.removedKeys) ∧
        ∀ j ∈ above h 0 change.leafIdx, Replaces tree.innerNodes change j) := by
  have shaped' : (tree.fitted h old change).Shaped h := (shaped.setLeaf _ _).withInner (length_mergeNodes _ _ _) _
  have keyed := issued.rootKeyed_iff shaped within
  have climb : directPath (.leaf change.leafIdx) tree.treeSize = .ok (above h 0 change.leafIdx) := by
    rw [shaped.size]
    exact directPath_leaf_of_lt (shaped.low.trans (by decide)) within
  have leaf : (tree.fitted h old change).leaves[change.leafIdx]?
      = some (some ⟨change.leafId, old.pk.merge (.shareKey (sk.shareKey 𝒞)) change.removedKeys⟩) := by
    show (tree.leaves.set _ _)[_]? = _
    rw [List.getElem?_set_self (by rw [shaped.leaves]; exact within), issued.leaf]
  constructor
  · intro knows replaced
    obtain ⟨id, sk', path, leaf', climb', climbs⟩ := knows.path change.leafIdx (if_pos (keyed.mpr replaced))
    obtain rfl := Except.ok.inj (climb.symm.trans climb')
    have merged := congrArg LeafNode.pk (Option.some.inj (Option.some.inj (leaf.symm.trans leaf')))
    refine ⟨merge_eq_shareKey_iff.mp ⟨_, merged⟩, fun j member => ?_⟩
    obtain ⟨k, here⟩ := List.getElem?_of_mem member
    obtain ⟨store, there, alone, -⟩ := issued.node shaped within here
    obtain ⟨store', version, there', single, -⟩ := climbs k j here
    obtain rfl := Option.some.inj (Option.some.inj (there.symm.trans there'))
    exact alone.mp (by rw [single]; rfl)
  · intro whole
    by_cases replaced : Replaces tree.innerNodes change (innerIdx h 0)
    · obtain ⟨gone, all⟩ := whole replaced
      have recorded : (tree.fitted h old change).currentSecretEncrypterLeafIdx = some change.leafIdx :=
        if_pos (keyed.mpr replaced)
      refine ⟨?_, fun i record => ?_⟩
      · rw [shaped'.hasRootKey_eq, recorded]
        exact iff_of_true (congrArg Except.ok (keyed.mpr replaced)) rfl
      obtain rfl := Option.some.inj (recorded.symm.trans record)
      refine ⟨change.leafId, sk, _, by rw [leaf, merge_of_removed gone], climb, fun k j here => ?_⟩
      obtain ⟨store, there, -, -, ratchets⟩ := issued.node shaped within here
      have ratchets := ratchets (all j (List.mem_of_getElem? here))
      obtain ⟨version, single, key⟩ := ratchets.version
      refine ⟨store, version, there, single, ?_, ratchets⟩
      rw [key, ShareSecretKey.ratchetNForward, ShareSecretKey.ratchetNForward, Function.iterate_succ_apply']
    · have unkeyed := mt keyed.mp replaced
      have recorded : (tree.fitted h old change).currentSecretEncrypterLeafIdx = none := if_neg unkeyed
      refine ⟨?_, fun i record => ?_⟩
      · rw [shaped'.hasRootKey_eq, recorded]
        exact iff_of_false (fun yes => unkeyed (Except.ok.inj yes)) (by simp)
      · rw [recorded] at record
        cases record

theorem Issued.rootKnown_iff {h' : Nat} (issued : Issued 𝒞 change h' sk stores) (shaped : tree.Shaped h)
    (known : tree.RootKnown 𝒞) (applies : tree.applyPath change = .ok tree') :
    tree'.RootKnown 𝒞 ↔ Whole tree change := by
  rcases shaped.applyPath_ok applies with ⟨absent, rfl⟩ | ⟨i, old, present, leaf, rfl⟩
  · refine ⟨fun _ i leaf path r present => ?_, fun _ => known⟩
    rw [absent] at present
    cases present
  have within := shaped.index _ _ present
  by_cases fits : Fits h i change
  · obtain rfl : h' = h := by
      rw [← fits.1, issued.path, List.length_zip, length_above, issued.length, Nat.min_self]
    obtain rfl : i = change.leafIdx := fits.2
    have fitted : tree.appliedPath h' change.leafIdx old change = tree.fitted h' old change := if_pos fits
    rw [fitted, issued.rootKnown_fitted_iff shaped within]
    constructor
    · intro whole i' leaf' path r present' leaf'' _ climb isRoot replaced
      obtain rfl := Option.some.inj (present.symm.trans present')
      obtain rfl := Option.some.inj (Option.some.inj (leaf.symm.trans leaf''))
      rw [shaped.size, directPath_leaf_of_lt (shaped.low.trans (by decide)) within] at climb
      obtain rfl := Except.ok.inj climb
      obtain ⟨k, rfl⟩ := Nat.exists_eq_add_of_le' shaped.positive
      rw [shaped.size, root_ofHeight, node_succ] at isRoot
      obtain rfl := TreeNodeIndex.inner.inj isRoot
      exact whole replaced
    · intro whole replaced
      refine whole _ old _ (innerIdx h' 0) present leaf ?_ ?_ ?_ replaced
      · have low : 2 ^ h' ≤ 2 ^ 31 := Nat.pow_le_pow_right (by omega) (by have := shaped.low; omega)
        rw [shaped.isValidPath_eq present, if_pos (by rwa [Nat.mod_eq_of_lt (by omega)]), decide_eq_true fits]
      · rw [shaped.size, directPath_leaf_of_lt (shaped.low.trans (by decide)) within]
      · obtain ⟨k, rfl⟩ := Nat.exists_eq_add_of_le' shaped.positive
        rw [shaped.size, root_ofHeight, node_succ]
  · -- The path is blanked.
    have blanked : tree.appliedPath h i old change
        = { tree with leaves := tree.mergedLeaves i old change }.withBlanked (above h 0 i) := if_neg fits
    rw [blanked]
    refine ⟨fun _ i' leaf path r present' _ valid => ?_,
      fun _ => .of_rootless ((shaped.setLeaf i _).rootless_withBlanked within)⟩
    obtain rfl := Option.some.inj (present.symm.trans present')
    rw [shaped.isValidPath_eq present] at valid
    split at valid
    · exact absurd (of_decide_eq_true (Except.ok.inj valid)) fits
    · cases valid

end Applied

/-! ### Runs -/

theorem Reached.exists_shaped {admits : BeeKem → PathChange → Prop} (reached : Reached 𝒞 admits tree) :
    ∃ h, tree.Shaped h := by
  induction reached with
  | new creates => exact ⟨1, (new_matched creates).1⟩
  | push _ pushes ih =>
    obtain ⟨h, shaped⟩ := ih
    obtain ⟨room, -, rfl⟩ := shaped.pushLeaf_ok pushes
    exact ⟨_, shaped.pushed room _ _⟩
  | remove _ removes ih =>
    obtain ⟨h, shaped⟩ := ih
    exact ⟨h, shaped.removed removes⟩
  | sort _ sorts ih =>
    obtain ⟨h, shaped⟩ := ih
    exact shaped.sorted sorts
  | encrypt _ _ returns ih =>
    obtain ⟨h, shaped⟩ := ih
    exact ⟨h, (shaped.encryptPath_root returns).1⟩
  | @apply _ _ _ _ _ _ _ change _ _ _ _ _ _ _ applies ih =>
    obtain ⟨h, shaped⟩ := ih
    rcases shaped.applyPath_ok applies with ⟨-, rfl⟩ | ⟨i, old, -, -, rfl⟩
    · exact ⟨h, shaped⟩
    · exact ⟨h, shaped.appliedPath _ _ _⟩

theorem Made.whole {change : PathChange} (made : Made tree h idx change) (shaped : tree.Shaped h) : Whole tree change := by
  intro i leaf path r present here _ climb _ _
  obtain rfl := Option.some.inj (made.present.symm.trans present)
  obtain ⟨old, pk, there, -, gone⟩ := made.leaf
  obtain rfl := Option.some.inj (Option.some.inj (there.symm.trans here))
  rw [shaped.size, directPath_leaf_of_lt (shaped.low.trans (by decide)) (shaped.index _ _ present)] at climb
  obtain rfl := Except.ok.inj climb
  exact ⟨gone, made.removed⟩

/-- **One change**, made on a tree of such a run and applied to another. -/
theorem Reached.known_applyPath_iff {sender sender' tree' : BeeKem} {id : MemberId} {pk : ShareKey} {sks : ShareKeyMap}
    {csprng : Rng} {pcsKey : PcsKey} {change : PathChange} (reached : Reached 𝒞 Whole tree)
    (known : tree.RootKnown 𝒞) (sent : Reached 𝒞 Whole sender) (honest : ∀ sk, sks[pk]? = some sk → sk.shareKey 𝒞 = pk)
    (returns : encryptPath 𝒞 id pk sks csprng sender = .ok (pcsKey, change) sender')
    (applies : tree.applyPath change = .ok tree') : tree'.RootKnown 𝒞 ↔ Whole tree change := by
  obtain ⟨h, shaped⟩ := reached.exists_shaped
  obtain ⟨h', shaped'⟩ := sent.exists_shaped
  obtain ⟨sk, stores, issued⟩ := shaped'.issued honest returns
  exact issued.rootKnown_iff shaped known applies

theorem Reached.known (reached : Reached 𝒞 Whole tree) : tree.RootKnown 𝒞 := by
  induction reached with
  | new creates =>
    obtain ⟨tree', created, shaped, -, nodes, -, -, encrypter, -⟩ := new_ok _ _ _
    obtain rfl := Except.ok.inj (creates.symm.trans created)
    exact .of_rootless ⟨shaped, by rw [nodes]; rfl, encrypter⟩
  | push before pushes ih =>
    obtain ⟨h, shaped⟩ := before.exists_shaped
    obtain ⟨room, -, rfl⟩ := shaped.pushLeaf_ok pushes
    exact .of_rootless (shaped.rootless_pushed room _ _)
  | remove before removes ih =>
    obtain ⟨h, shaped⟩ := before.exists_shaped
    exact .of_rootless (shaped.rootless_removed removes)
  | sort before sorts ih =>
    obtain ⟨h, shaped⟩ := before.exists_shaped
    exact (shaped.sorted_cases sorts).elim id fun same => same ▸ ih
  | encrypt before honest returns ih =>
    -- The sender's own tree is what applying the change to the tree before gives.
    obtain ⟨h, shaped⟩ := before.exists_shaped
    obtain ⟨-, i, made⟩ := shaped.made returns
    have applies := shaped.encryptPath_applyPath returns
    exact (before.known_applyPath_iff ih before honest returns applies).mpr (made.whole shaped)
  | apply before sent honest returns whole applies ih =>
    exact (before.known_applyPath_iff ih sent honest returns applies).mpr whole

/-- **The key of the root and its author are known together** in every tree of a run whose changes are whole, and a
further change keeps it so exactly if it is whole too. -/
theorem Reached.rootKnown (reached : Reached 𝒞 Whole tree) : tree.RootKnown 𝒞 ∧
    ∀ {sender id pk sks csprng pcsKey change sender' tree'}, Reached 𝒞 Whole sender →
      (∀ sk, sks[pk]? = some sk → sk.shareKey 𝒞 = pk) →
      encryptPath 𝒞 id pk sks csprng sender = .ok (pcsKey, change) sender' → tree.applyPath change = .ok tree' →
        (tree'.RootKnown 𝒞 ↔ Whole tree change) :=
  ⟨reached.known, fun sent honest returns applies =>
    reached.known_applyPath_iff reached.known sent honest returns applies⟩

end BeeKem

namespace Sample

theorem secrets_honest (n : Nat) (sk : ShareSecretKey) (found : (secrets [n])[key n]? = some sk) :
    sk.shareKey crypto = key n := by
  have inserted : (secrets [n])[key n]? = some (secret n) := by
    show ((∅ : ShareKeyMap).insert (key n) (secret n))[key n]? = _
    simp
  obtain rfl := Option.some.inj (inserted.symm.trans found)
  rfl

/-- An update of the tree of two members, at the sender and at a receiver. -/
theorem update_root_known : ∃ tree pcsKey change tree', pair = .ok tree ∧
    updateOf 1 0x50 tree = .ok (pcsKey, change) tree' ∧
    tree.applyPath change = .ok tree' ∧ tree'.RootKnown crypto ∧ BeeKem.Whole tree change := by
  obtain ⟨tree, pcsKey, -, change, -, tree', -, built, updates, -⟩ :=
    of_twoUpdates (fun _ _ _ _ => true) (by decide +kernel)
  obtain ⟨tree₀, new, rest⟩ := except_bind_ok_iff.mp built
  obtain ⟨⟨i, tree₁⟩, pushes, same⟩ := except_bind_ok_iff.mp rest
  obtain rfl := except_pure_ok_iff.mp same
  have before : BeeKem.Reached crypto BeeKem.Whole tree₁ := .push (.new new) pushes
  obtain ⟨h, shaped⟩ := before.exists_shaped
  have applies := shaped.encryptPath_applyPath updates
  have after := (BeeKem.Reached.rootKnown (.encrypt before (secrets_honest 0x50) updates)).1
  exact ⟨tree₁, pcsKey, change, tree', built, updates, applies, after,
    (before.rootKnown.2 before (secrets_honest 0x50) updates applies).mp after⟩

/-- Two members update concurrently, and one of them adds a member before the other update comes in. -/
def lateUpdate : List (Nat × Call Unit) :=
  [(0, .add (member 2) (key 0x20) (signer 2)), (0, .add (member 3) (key 0x30) (signer 3)),
    (0, .withNewOwner (member 2) (secrets [0x20])), (0, .update (key 0x50) (secret 0x50) (signer 4) (rng 0x50)),
    (1, .update (key 0x60) (secret 0x60) (signer 5) (rng 0x60)), (0, .add (member 4) (key 0x40) (signer 6)),
    (0, .mergeConcurrentOperation 4)]

/-- Whether a node on the path of the encrypter is in conflict. -/
def conflictBelowRoot (tree : BeeKem) : Bool :=
  tree.currentSecretEncrypterLeafIdx.any fun i =>
    (directPath (.leaf i) tree.treeSize).toOption.any fun path =>
      path.any fun j => tree.innerNodes[j]?.join.any fun store => store.hasConflict

theorem not_rootKnown_of_conflict {tree : BeeKem} (conflict : conflictBelowRoot tree = true) : ¬ tree.RootKnown crypto := by
  intro known
  obtain ⟨i, recorded, conflict⟩ := (Option.any_eq_true _ _).mp conflict
  obtain ⟨path, climb, conflict⟩ := (Option.any_eq_true _ _).mp conflict
  obtain ⟨id, sk, path', -, climb', climbs⟩ := known.path i recorded
  rw [climb'] at climb
  obtain rfl := Option.some.inj climb
  obtain ⟨j, member, conflict⟩ := List.any_eq_true.mp conflict
  obtain ⟨store, there, conflict⟩ := (Option.any_eq_true _ _).mp conflict
  obtain ⟨k, here⟩ := List.getElem?_of_mem member
  obtain ⟨store', version, there', single, -⟩ := climbs k j here
  obtain rfl := Option.some.inj (Option.some.inj ((Option.join_eq_some_iff.mp there).symm.trans there'))
  simp [SecretStore.hasConflict, single] at conflict

/-- **The root has a key, and the path of its author is in conflict**: the add has blanked the root, so the late update
finds nothing to conflict with there, but the node below still has the key of the other update. -/
theorem conflict_below_the_root :
    ∃ (first : Cgka) (w : World Unit) (cgka : Cgka), create = .ok first ∧
      World.Reachable suite first (fun _ _ _ => True) w ∧ cgka ∈ w.replicas ∧ cgka.tree.hasRootKey = .ok true ∧
      cgka.tree.currentSecretEncrypterLeafIdx = some 1 ∧ ¬ cgka.tree.RootKnown crypto := by
  obtain ⟨first, w, created, reached, checked⟩ := reachedFreely lateUpdate
    (fun w => w.replicas[0]?.any fun cgka => conflictBelowRoot cgka.tree &&
      (cgka.tree.currentSecretEncrypterLeafIdx == some 1 && cgka.tree.hasRootKey.toOption == some true))
    (by decide +kernel)
  obtain ⟨cgka, found, checked⟩ := (Option.any_eq_true _ _).mp checked
  obtain ⟨conflict, checked⟩ := Bool.and_eq_true_iff.mp checked
  obtain ⟨recorded, keyed⟩ := Bool.and_eq_true_iff.mp checked
  refine ⟨first, w, cgka, created, reached, List.mem_of_getElem? found, ?_, eq_of_beq recorded,
    not_rootKnown_of_conflict conflict⟩
  cases has : cgka.tree.hasRootKey with
  | ok value =>
    rw [has] at keyed
    exact congrArg Except.ok (Option.some.inj (eq_of_beq keyed))
  | error fault => simp [has, Except.toOption] at keyed

end Sample

end KeyhiveEval.Beekem
