/-
**Changes of paths, at the sender and at the receivers.**

The sender of an update overwrites the nodes of a path. A receiver merges each store into the node that it has: it drops
the versions whose keys the change removes and appends the new one.

* `encryptPath_agrees` — on the tree that the change was made on both give the same tree, in every field.
* `concurrent_paths` — two changes that two members made on one tree. Off the nodes that both paths have, the order in
  which they are applied does not matter. On a node of both, e.g. the root, the version applied last stands last: the
  trees are the same only if the two versions are, and the versions are in the order of their keys only if the change
  with the greater key comes last.
-/

import KeyhiveEval.Beekem.Replay
import KeyhiveEval.Beekem.Bijection

namespace KeyhiveEval.Beekem

open Std PerfectTree Stateful

namespace BeeKem

/-! ### The sender and the receivers -/

section Agrees

variable {𝒞 : Crypto} {tree tree' : BeeKem} {h : Nat} {id : MemberId} {pk : ShareKey} {sks : ShareKeyMap} {csprng : Rng}
  {pcsKey : PcsKey} {change : PathChange}

/-- **A receiver gets the tree of the sender**, with the same root key and the same encrypter. -/
theorem encryptPath_agrees (shaped : tree.Shaped h)
    (returns : encryptPath 𝒞 id pk sks csprng tree = .ok (pcsKey, change) tree') :
    tree.applyPath change = .ok tree' ∧ tree'.hasRootKey = .ok true ∧
      tree'.currentSecretEncrypterLeafIdx = tree.idToLeafIdx[id]? := by
  obtain ⟨-, root, -, idx, sk, present, encrypter, -⟩ := shaped.encryptPath_root returns
  exact ⟨shaped.encryptPath_applyPath returns, root, encrypter.trans present.symm⟩

end Agrees

/-! ### Two changes of one node -/

/-- The versions are in the order of their keys. -/
def Ordered (store : InnerNode) : Prop :=
  store.versions.Pairwise fun one two => (compare one.pk two.pk).isLE = true

instance (store : InnerNode) : Decidable (Ordered store) := inferInstanceAs (Decidable (List.Pairwise _ _))

section Merge

variable {one two : InnerNode} {v₁ v₂ : SecretStoreVersion} {removed₁ removed₂ : List ShareKey}
  (first : one.versions = [v₁]) (second : two.versions = [v₂])

include first second

theorem merge_single : one.merge two removed₂ = ⟨if v₁.pk ∈ removed₂ then [v₂] else [v₁, v₂]⟩ := by
  unfold SecretStore.merge SecretStore.removeKeysFrom
  rw [first, second]
  by_cases gone : v₁.pk ∈ removed₂ <;> simp [gone]

/-- **The order of two merges matters** unless they bring one version, and both keep it or both remove it. -/
theorem merge_comm_iff : one.merge two removed₂ = two.merge one removed₁ ↔
    one = two ∧ ∀ version ∈ one.versions, version.pk ∈ removed₁ ↔ version.pk ∈ removed₂ := by
  have same : one = two ↔ v₁ = v₂ := by
    obtain ⟨versions⟩ := one
    obtain ⟨versions'⟩ := two
    obtain rfl : versions = [v₁] := first
    obtain rfl : versions' = [v₂] := second
    simp
  rw [merge_single first second, merge_single second first, same, first]
  by_cases gone₁ : v₁.pk ∈ removed₂ <;> by_cases gone₂ : v₂.pk ∈ removed₁ <;> simp [gone₁, gone₂]
  · exact ⟨fun equal => ⟨equal.symm, equal ▸ gone₂⟩, fun equal => equal.1.symm⟩
  · exact fun equal => equal ▸ gone₂
  · exact fun equal => equal ▸ gone₂
  · exact fun equal => ⟨fun _ => equal ▸ gone₂, fun _ => equal.symm⟩

theorem ordered_merge_iff : Ordered (one.merge two removed₂) ↔ ∀ version ∈ one.versions, ∀ version' ∈ two.versions,
    version.pk ∈ removed₂ ∨ (compare version.pk version'.pk).isLE = true := by
  rw [merge_single first second, first, second]
  by_cases gone : v₁.pk ∈ removed₂ <;> simp [Ordered, gone]

end Merge

/-! ### Two changes of one tree -/

def withoutEncrypter (tree : BeeKem) : BeeKem := { tree with currentSecretEncrypterLeafIdx := none }

section Cross

variable {tree : BeeKem} {h idx₁ idx₂ j : Nat} {one two : PathChange} {store store' : InnerNode}
  {current : Option InnerNode}

theorem Made.rewriteNode_eq (made : Made tree h idx₁ one) (member : (j, store) ∈ one.path)
    (here : tree.innerNodes[j]? = some current) : rewriteNode one.removedKeys one.path j current = some store := by
  rw [rewriteNode_of_mem _ (made.onPath ▸ nodup_above _ _ _) member]
  cases current with
  | none => rfl
  | some old =>
    have gone := made.removed j (made.onPath ▸ List.mem_map_of_mem member) old here
    have empty : (old.removeKeysFrom one.removedKeys).versions = [] :=
      List.filter_eq_nil_iff.mpr fun version inside => by simpa using gone version inside
    show some (SecretStore.mk ((old.removeKeysFrom one.removedKeys).versions ++ store.versions)) = some store
    rw [empty, List.nil_append]

variable (first : Made tree h idx₁ one) (second : Made tree h idx₂ two) (here : tree.innerNodes[j]? = some current)

include first second here

/-- **What two changes leave on a node that both have.** -/
theorem rewrite_both (member : (j, store) ∈ one.path) (member' : (j, store') ∈ two.path) :
    rewriteNode two.removedKeys two.path j (rewriteNode one.removedKeys one.path j current)
      = some (store.merge store' two.removedKeys) := by
  rw [first.rewriteNode_eq member here, rewriteNode_of_mem _ (second.onPath ▸ nodup_above _ _ _) member']
  rfl

/-- **What two changes leave on another node**: what one of them brings, or what was there. -/
theorem rewrite_other (apart : ∀ store store', (j, store) ∈ one.path → (j, store') ∉ two.path) :
    rewriteNode two.removedKeys two.path j (rewriteNode one.removedKeys one.path j current)
        = rewriteNode one.removedKeys one.path j (rewriteNode two.removedKeys two.path j current) ∧
      (rewriteNode two.removedKeys two.path j (rewriteNode one.removedKeys one.path j current) = current ∨
        ∃ entry ∈ one.path ++ two.path,
          rewriteNode two.removedKeys two.path j (rewriteNode one.removedKeys one.path j current) = some entry.2) := by
  by_cases onFirst : ∃ store, (j, store) ∈ one.path
  · obtain ⟨store, member⟩ := onFirst
    have off (current : Option InnerNode) : rewriteNode two.removedKeys two.path j current = current :=
      rewriteNode_of_not_mem _ (fun store' => apart store store' member) current
    rw [off, off, first.rewriteNode_eq member here]
    exact ⟨rfl, .inr ⟨_, List.mem_append_left _ member, rfl⟩⟩
  · have off (current : Option InnerNode) : rewriteNode one.removedKeys one.path j current = current :=
      rewriteNode_of_not_mem _ (fun store member => onFirst ⟨store, member⟩) current
    rw [off, off]
    by_cases onSecond : ∃ store, (j, store) ∈ two.path
    · obtain ⟨store, member⟩ := onSecond
      rw [second.rewriteNode_eq member here]
      exact ⟨rfl, .inr ⟨_, List.mem_append_right _ member, rfl⟩⟩
    · rw [rewriteNode_of_not_mem _ fun store member => onSecond ⟨store, member⟩]
      exact ⟨rfl, .inl rfl⟩

end Cross

/-- Every store of the tree satisfies a condition. -/
def Everywhere (tree : BeeKem) (holds : InnerNode → Prop) : Prop :=
  ∀ (j : Nat) (store : InnerNode), tree.innerNodes[j]? = some (some store) → holds store

/-- What holds of the versions that two changes leave on each node of both paths. -/
def Meet (one two : PathChange) (holds : InnerNode → InnerNode → Prop) : Prop :=
  ∀ (j : Nat) (store store' : InnerNode), (j, store) ∈ one.path → (j, store') ∈ two.path → holds store store'

section Both

variable {tree : BeeKem} {h idx₁ idx₂ : Nat} {one two : PathChange} (shaped : tree.Shaped h)
  (first : Made tree h idx₁ one) (second : Made tree h idx₂ two)

theorem Shaped.takenOver (shaped : tree.Shaped h) (idx : Nat) (change : PathChange) :
    (tree.takenOver h idx change).Shaped h :=
  (shaped.setLeaf idx _).withInner (length_mergeNodes _ _ _) _

def bothTaken (tree : BeeKem) (h idx₁ idx₂ : Nat) (one two : PathChange) : BeeKem :=
  (tree.takenOver h idx₁ one).takenOver h idx₂ two

theorem getElem?_bothTaken (j : Nat) : (tree.bothTaken h idx₁ idx₂ one two).innerNodes[j]?
    = tree.innerNodes[j]?.map fun current =>
        rewriteNode two.removedKeys two.path j (rewriteNode one.removedKeys one.path j current) := by
  show (mergeNodes two.removedKeys two.path (mergeNodes one.removedKeys one.path tree.innerNodes))[j]? = _
  rw [getElem?_mergeNodes, getElem?_mergeNodes, Option.map_map]
  rfl

include shaped second in
/-- **The second change is taken over too**, if the members are different. -/
theorem applyPath_both (apart : idx₁ ≠ idx₂) :
    (tree.takenOver h idx₁ one).applyPath two = .ok (tree.bothTaken h idx₁ idx₂ one two) :=
  second.applyPath_eq (shaped.takenOver idx₁ one) rfl (List.getElem?_set_ne apart)

theorem leaves_bothTaken_comm (apart : idx₁ ≠ idx₂) :
    (tree.bothTaken h idx₁ idx₂ one two).leaves = (tree.bothTaken h idx₂ idx₁ two one).leaves :=
  (List.set_comm _ _ apart.symm).symm

include shaped first in
theorem mem_innerNodes {j : Nat} {store : InnerNode} (member : (j, store) ∈ one.path) :
    ∃ current, tree.innerNodes[j]? = some current := by
  have within := shaped.index _ _ first.present
  have bound : j < 2 ^ h - 1 := lt_of_mem_above (inside_leaf.mpr within)
    (by rw [Nat.sub_zero, ← first.onPath]; exact List.mem_map_of_mem member)
  exact ⟨_, List.getElem?_eq_getElem (by rw [shaped.inner]; exact bound)⟩

include shaped first second

/-- What a condition on all stores says about the nodes of both paths, if the tree and the changes meet it. -/
theorem everywhere_bothTaken_iff {holds : InnerNode → Prop} (before : tree.Everywhere holds)
    (brought : ∀ entry ∈ one.path ++ two.path, holds entry.2) :
    (tree.bothTaken h idx₁ idx₂ one two).Everywhere holds ↔
      Meet one two fun store store' => holds (store.merge store' two.removedKeys) := by
  constructor
  · intro everywhere j store store' member member'
    obtain ⟨current, here⟩ := mem_innerNodes shaped first member
    refine everywhere j _ ?_
    rw [getElem?_bothTaken, here, Option.map_some, rewrite_both first second here member member']
  · intro meet j store there
    rw [getElem?_bothTaken] at there
    obtain ⟨current, here, written⟩ := Option.map_eq_some_iff.mp there
    by_cases both : ∃ store store', (j, store) ∈ one.path ∧ (j, store') ∈ two.path
    · obtain ⟨_, _, member, member'⟩ := both
      rw [rewrite_both first second here member member'] at written
      exact Option.some.inj written ▸ meet j _ _ member member'
    · have other := (rewrite_other first second here fun store store' member member' =>
        both ⟨store, store', member, member'⟩).2
      rcases other with same | ⟨entry, member, same⟩
      · rw [same] at written
        exact before j store (written ▸ here)
      · rw [same] at written
        exact Option.some.inj written ▸ brought entry member

omit shaped in
theorem getElem?_bothTaken_comm (j : Nat) (apart : ∀ store store', (j, store) ∈ one.path → (j, store') ∉ two.path) :
    (tree.bothTaken h idx₁ idx₂ one two).innerNodes[j]? = (tree.bothTaken h idx₂ idx₁ two one).innerNodes[j]? := by
  rw [getElem?_bothTaken, getElem?_bothTaken]
  exact Option.map_congr fun current here => (rewrite_other first second here apart).1

/-- **The order of the changes matters only on the nodes of both paths.** -/
theorem innerNodes_bothTaken_eq_iff :
    (tree.bothTaken h idx₁ idx₂ one two).innerNodes = (tree.bothTaken h idx₂ idx₁ two one).innerNodes ↔
      Meet one two fun store store' => store.merge store' two.removedKeys = store'.merge store one.removedKeys := by
  constructor
  · intro same j store store' member member'
    obtain ⟨current, here⟩ := mem_innerNodes shaped first member
    have there := congrArg (fun nodes : List (Option InnerNode) => nodes[j]?) same
    simp only [getElem?_bothTaken, here, Option.map_some,
      rewrite_both first second here member member', rewrite_both second first here member' member] at there
    exact Option.some.inj (Option.some.inj there)
  · intro meet
    refine List.ext_getElem? fun j => ?_
    by_cases both : ∃ store store', (j, store) ∈ one.path ∧ (j, store') ∈ two.path
    · obtain ⟨_, _, member, member'⟩ := both
      obtain ⟨current, here⟩ := mem_innerNodes shaped first member
      rw [getElem?_bothTaken, getElem?_bothTaken, here, Option.map_some, Option.map_some,
        rewrite_both first second here member member', rewrite_both second first here member' member,
        meet j _ _ member member']
    · exact getElem?_bothTaken_comm first second j fun store store' member member' =>
        both ⟨store, store', member, member'⟩

omit shaped in
/-- On the nodes of both paths a change has brought stores with one version each. -/
theorem meet_congr {holds holds' : InnerNode → InnerNode → Prop} (iff : ∀ store store' version version',
      store.versions = [version] → store'.versions = [version'] → (holds store store' ↔ holds' store store')) :
    Meet one two holds ↔ Meet one two holds' := by
  unfold Meet
  refine forall₅_congr fun j store store' member member' => ?_
  obtain ⟨version, single⟩ := first.single _ member
  obtain ⟨version', single'⟩ := second.single _ member'
  exact iff store store' version version' single single'

omit shaped in
theorem single_of_mem (entry : Nat × InnerNode) (member : entry ∈ one.path ++ two.path) :
    ∃ version, entry.2.versions = [version] :=
  (List.mem_append.mp member).elim (first.single entry) (second.single entry)

/-- **The two orders give one tree exactly if the changes left the same versions on the nodes of both paths**, and
both or neither of them removes these. -/
theorem bothTaken_eq_iff (apart : idx₁ ≠ idx₂) : (tree.bothTaken h idx₁ idx₂ one two).withoutEncrypter
      = (tree.bothTaken h idx₂ idx₁ two one).withoutEncrypter ↔ Meet one two fun store store' =>
        store = store' ∧ ∀ version ∈ store.versions, version.pk ∈ one.removedKeys ↔ version.pk ∈ two.removedKeys := by
  have nodes : (tree.bothTaken h idx₁ idx₂ one two).withoutEncrypter
        = (tree.bothTaken h idx₂ idx₁ two one).withoutEncrypter ↔
      (tree.bothTaken h idx₁ idx₂ one two).innerNodes = (tree.bothTaken h idx₂ idx₁ two one).innerNodes := by
    constructor
    · intro same
      have equal := congrArg BeeKem.innerNodes same
      exact equal
    · intro same
      unfold withoutEncrypter
      rw [leaves_bothTaken_comm apart, same]
      rfl
  rw [nodes, innerNodes_bothTaken_eq_iff shaped first second]
  exact meet_congr first second fun store store' version version' single single' => merge_comm_iff single single'

theorem versions_bothTaken (before : tree.Everywhere (·.versions ≠ [])) :
    (tree.bothTaken h idx₁ idx₂ one two).Everywhere (·.versions ≠ []) := by
  refine (everywhere_bothTaken_iff shaped first second before fun entry member => ?_).mpr ?_
  · obtain ⟨version, single⟩ := single_of_mem first second entry member
    simp [single]
  · intro j store store' member member'
    obtain ⟨version, single⟩ : ∃ version, store'.versions = [version] := second.single _ member'
    show (store.removeKeysFrom two.removedKeys).versions ++ store'.versions ≠ []
    simp [single]

/-- The versions stay in order exactly if on every common node the first change's version goes or has the lower key. -/
theorem ordered_bothTaken_iff (before : tree.Everywhere Ordered) :
    (tree.bothTaken h idx₁ idx₂ one two).Everywhere Ordered ↔ Meet one two fun store store' =>
      ∀ version ∈ store.versions, ∀ version' ∈ store'.versions,
        version.pk ∈ two.removedKeys ∨ (compare version.pk version'.pk).isLE = true := by
  refine (everywhere_bothTaken_iff shaped first second before fun entry member => ?_).trans
    (meet_congr first second fun store store' version version' single single' => ordered_merge_iff single single')
  obtain ⟨version, single⟩ := single_of_mem first second entry member
  simp [Ordered, single]

omit shaped in
theorem Bijective.apart (bijective : tree.Bijective) (different : one.leafId ≠ two.leafId) : idx₁ ≠ idx₂ := by
  rintro rfl
  obtain ⟨-, leaf, here, owner⟩ := bijective.image _ _ first.present
  obtain ⟨-, leaf', here', owner'⟩ := bijective.image _ _ second.present
  obtain rfl := Option.some.inj (Option.some.inj (here.symm.trans here'))
  exact different (owner.symm.trans owner')

end Both

section Concurrent

variable {𝒞 : Crypto} {tree tree₁ tree₂ : BeeKem} {h : Nat} {id₁ id₂ : MemberId} {pk₁ pk₂ : ShareKey}
  {sks₁ sks₂ : ShareKeyMap} {csprng₁ csprng₂ : Rng} {key₁ key₂ : PcsKey} {one two : PathChange}

/-- **Two changes that different members made on one tree.** Both trees take the change of the other member over, and
they agree on the leaves and on the nodes that only one of the paths has. They are equal only if the changes left the
same version on every common node, and both or neither of them removes it. Every store keeps a version, and the
versions stay in order only if on every common node the first change's version goes or has the lower key. -/
theorem concurrent_paths (shaped : tree.Shaped h) (bijective : tree.Bijective) (different : id₁ ≠ id₂)
    (first : encryptPath 𝒞 id₁ pk₁ sks₁ csprng₁ tree = .ok (key₁, one) tree₁)
    (second : encryptPath 𝒞 id₂ pk₂ sks₂ csprng₂ tree = .ok (key₂, two) tree₂) :
    ∃ both both', tree.applyPath one = .ok tree₁ ∧ tree₁.applyPath two = .ok both ∧
      tree.applyPath two = .ok tree₂ ∧ tree₂.applyPath one = .ok both' ∧
      both.leaves = both'.leaves ∧ both.idToLeafIdx = both'.idToLeafIdx ∧
      (∀ j, (∀ store store', (j, store) ∈ one.path → (j, store') ∉ two.path) →
        both.innerNodes[j]? = both'.innerNodes[j]?) ∧
      (both.withoutEncrypter = both'.withoutEncrypter ↔ Meet one two fun store store' =>
        store = store' ∧ ∀ version ∈ store.versions, version.pk ∈ one.removedKeys ↔ version.pk ∈ two.removedKeys) ∧
      (tree.Everywhere (·.versions ≠ []) → both.Everywhere (·.versions ≠ [])) ∧
      (tree.Everywhere Ordered → (both.Everywhere Ordered ↔ Meet one two fun store store' =>
        ∀ version ∈ store.versions, ∀ version' ∈ store'.versions,
          version.pk ∈ two.removedKeys ∨ (compare version.pk version'.pk).isLE = true)) := by
  obtain ⟨owner₁, idx₁, made₁⟩ := shaped.made first
  obtain ⟨owner₂, idx₂, made₂⟩ := shaped.made second
  have applies₁ := shaped.encryptPath_applyPath first
  have applies₂ := shaped.encryptPath_applyPath second
  obtain rfl := Except.ok.inj (applies₁.symm.trans (made₁.applyPath_eq shaped rfl rfl))
  obtain rfl := Except.ok.inj (applies₂.symm.trans (made₂.applyPath_eq shaped rfl rfl))
  have apart : idx₁ ≠ idx₂ := bijective.apart made₁ made₂ (by rw [owner₁, owner₂]; exact different)
  exact ⟨_, _, applies₁, applyPath_both shaped made₂ apart, applies₂, applyPath_both shaped made₁ apart.symm,
    leaves_bothTaken_comm apart, rfl, getElem?_bothTaken_comm made₁ made₂, bothTaken_eq_iff shaped made₁ made₂ apart,
    versions_bothTaken shaped made₁ made₂, ordered_bothTaken_iff shaped made₁ made₂⟩

end Concurrent

end BeeKem

namespace Sample

def pair : Res BeeKem := do
  let tree ← BeeKem.new ⟨0⟩ (member 1) (key 0x10)
  let (_, tree) ← tree.pushLeaf (member 2) (.shareKey (key 0x20))
  return tree

theorem pair_bijective {tree : BeeKem} (built : pair = .ok tree) : tree.Bijective ∧ ∃ h, tree.Shaped h := by
  obtain ⟨tree₀, new, rest⟩ := except_bind_ok_iff.mp built
  obtain ⟨⟨idx, tree₁⟩, pushes, same⟩ := except_bind_ok_iff.mp rest
  obtain rfl := except_pure_ok_iff.mp same
  obtain ⟨shaped, matched⟩ := BeeKem.new_matched new
  obtain ⟨tree₀', new', -, -, -, -, map, -⟩ := BeeKem.new_ok ⟨0⟩ (member 1) (key 0x10)
  obtain rfl := Except.ok.inj (new.symm.trans new')
  obtain ⟨room, -, rfl⟩ := shaped.pushLeaf_ok pushes
  have absent : tree₀.idToLeafIdx[member 2]? = none := by
    rw [map]
    decide +kernel
  have pushed := shaped.pushed room (member 2) (.shareKey (key 0x20))
  exact ⟨((matched.fresh absent _).pushed shaped room).bijective pushed, _, pushed⟩

def updateOf (id n : Nat) (tree : BeeKem) : EStateM.Result Fault BeeKem (PcsKey × PathChange) :=
  BeeKem.encryptPath crypto (member id) (key n) (secrets [n]) (rng n) tree

/-- Two updates of the tree of two members, and what holds of them. -/
def twoUpdates (check : PathChange → PathChange → BeeKem → BeeKem → Bool) : Bool :=
  match pair with
  | .ok tree =>
    match updateOf 1 0x50 tree, updateOf 2 0x60 tree with
    | .ok (_, one) tree₁, .ok (_, two) tree₂ => check one two tree₁ tree₂
    | _, _ => false
  | .error _ => false

theorem of_twoUpdates (check : PathChange → PathChange → BeeKem → BeeKem → Bool) (passes : twoUpdates check = true) :
    ∃ tree key₁ key₂ one two tree₁ tree₂, pair = .ok tree ∧ updateOf 1 0x50 tree = .ok (key₁, one) tree₁ ∧
      updateOf 2 0x60 tree = .ok (key₂, two) tree₂ ∧ check one two tree₁ tree₂ = true := by
  unfold twoUpdates at passes
  split at passes
  · rename_i tree built
    split at passes
    · rename_i key₁ one tree₁ key₂ two tree₂ first second
      exact ⟨tree, key₁, key₂, one, two, tree₁, tree₂, built, first, second, passes⟩
    · simp at passes
  · simp at passes

/-- An update of the tree of two members is taken over as the sender has it. -/
theorem update_agrees : ∃ tree key change tree', pair = .ok tree ∧ updateOf 1 0x50 tree = .ok (key, change) tree' ∧
    tree.applyPath change = .ok tree' ∧ tree'.hasRootKey = .ok true ∧
    tree'.currentSecretEncrypterLeafIdx = tree.idToLeafIdx[member 1]? := by
  obtain ⟨tree, key, -, change, -, tree', -, built, updates, -⟩ :=
    of_twoUpdates (fun _ _ _ _ => true) (by decide +kernel)
  obtain ⟨-, h, shaped⟩ := pair_bijective built
  exact ⟨tree, key, change, tree', built, updates, BeeKem.encryptPath_agrees shaped updates⟩

def nodeKeys (tree : BeeKem) : List (Option (List ShareKey)) :=
  tree.innerNodes.map fun node => node.map fun store => store.versions.map (·.pk)

/-- Two concurrent updates are taken over in both orders. -/
theorem concurrent_updates_apply : ∃ tree key₁ key₂ one two tree₁ tree₂ both both', pair = .ok tree ∧
    updateOf 1 0x50 tree = .ok (key₁, one) tree₁ ∧ updateOf 2 0x60 tree = .ok (key₂, two) tree₂ ∧
    tree₁.applyPath two = .ok both ∧ tree₂.applyPath one = .ok both' ∧ both.leaves = both'.leaves ∧
    (both.withoutEncrypter = both'.withoutEncrypter ↔ BeeKem.Meet one two fun store store' =>
      store = store' ∧ ∀ version ∈ store.versions, version.pk ∈ one.removedKeys ↔ version.pk ∈ two.removedKeys) := by
  obtain ⟨tree, key₁, key₂, one, two, tree₁, tree₂, built, first, second, -⟩ :=
    of_twoUpdates (fun _ _ _ _ => true) (by decide +kernel)
  obtain ⟨bijective, h, shaped⟩ := pair_bijective built
  obtain ⟨both, both', -, applies, -, applies', leaves, -, -, equal, -⟩ :=
    BeeKem.concurrent_paths shaped bijective (by decide) first second
  exact ⟨tree, key₁, key₂, one, two, tree₁, tree₂, both, both', built, first, second, applies, applies', leaves, equal⟩

/-- **Two concurrent updates do not commute**: the root has the keys of both in the order in which they came, and in
one of the two orders they are not sorted. -/
theorem concurrent_updates_differ : ∃ tree key₁ key₂ one two tree₁ tree₂ both both', pair = .ok tree ∧
    tree.Bijective ∧ updateOf 1 0x50 tree = .ok (key₁, one) tree₁ ∧ updateOf 2 0x60 tree = .ok (key₂, two) tree₂ ∧
    tree₁.applyPath two = .ok both ∧ tree₂.applyPath one = .ok both' ∧
    both.withoutEncrypter ≠ both'.withoutEncrypter ∧ ¬ both'.Everywhere BeeKem.Ordered := by
  obtain ⟨tree, key₁, key₂, one, two, tree₁, tree₂, built, first, second, checked⟩ :=
    of_twoUpdates (fun one two tree₁ tree₂ =>
      match tree₁.applyPath two, tree₂.applyPath one with
      | .ok both, .ok both' => decide (nodeKeys both ≠ nodeKeys both') &&
          both'.innerNodes[0]?.join.any fun store => !decide (BeeKem.Ordered store)
      | _, _ => false) (by decide +kernel)
  split at checked
  · rename_i both both' applies applies'
    obtain ⟨differ, unordered⟩ := Bool.and_eq_true_iff.mp checked
    refine ⟨tree, key₁, key₂, one, two, tree₁, tree₂, both, both', built, (pair_bijective built).1, first, second,
      applies, applies', fun same => ?_, fun ordered => ?_⟩
    · have nodes : both.innerNodes = both'.innerNodes := by
        have equal := congrArg BeeKem.innerNodes same
        exact equal
      exact of_decide_eq_true differ (by rw [nodeKeys, nodes, nodeKeys])
    · obtain ⟨store, found, fails⟩ := (Option.any_eq_true _ _).mp unordered
      have holds := ordered 0 store (Option.join_eq_some_iff.mp found)
      simp [holds] at fails
  · simp at checked

end Sample

end KeyhiveEval.Beekem
