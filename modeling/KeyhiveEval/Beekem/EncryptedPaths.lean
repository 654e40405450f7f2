/-
**The path that encrypting writes.**

Encrypting a path climbs from the leaf of the owner to the root. It ratchets one secret forward and
writes on each node a store with the next secret, encrypted for the resolution of the sibling below
(`Stores`). What it writes is off every subtree that it encrypts for, so the stores are those of the
tree it started from.

* `encryptPath_ok` — the change and the tree that a successful call returns.
* `encryptPath_applyPath` — applying the change to the tree from which it was made gives the tree of
  the encrypter: all the keys that the path replaces are among the removed ones.
* `Made` — what every such change is like; `Made.applyPath_eq` says what it does to another tree of the same height in
  which the member has the same leaf.
-/

import KeyhiveEval.Beekem.Resolution

namespace KeyhiveEval.Beekem

open Std PerfectTree Stateful

namespace BeeKem

/-! ### What a store depends on -/

section Stores

variable (𝒞 : Crypto)

theorem encryptForResolution_congr {tree tree' : BeeKem} (document : tree.docId = tree'.docId)
    (childIdx : TreeNodeIndex) (childSk newParentSk : ShareSecretKey) {idxs : List TreeNodeIndex}
    (same : ∀ idx ∈ idxs, tree.nodeKeyForIndex idx = tree'.nodeKeyForIndex idx) (used : Bool)
    (secretMap : ExtTreeMap TreeNodeIndex EncryptedSecret) :
    tree.encryptForResolution 𝒞 childIdx childSk newParentSk idxs used secretMap
      = tree'.encryptForResolution 𝒞 childIdx childSk newParentSk idxs used secretMap := by
  induction idxs generalizing used secretMap with
  | nil => rfl
  | cons idx rest ih =>
    unfold encryptForResolution
    rw [same idx List.mem_cons_self, document]
    have later := ih fun other member => same other (List.mem_cons_of_mem _ member)
    simp only [later]

/-- The store of a parent depends on the subtree of the child's sibling only. -/
theorem Shaped.encryptNewSecretStoreForParent_congr {tree tree' : BeeKem} {h k p : Nat}
    (shaped : tree.Shaped h) (shaped' : tree'.Shaped h) (document : tree.docId = tree'.docId)
    (inside : Inside h k p) (below : k < h)
    (same : ∀ j q, Under k (twin p) j q → tree.nodeAt j q = tree'.nodeAt j q)
    (pk : ShareKey) (sk : ShareSecretKey) (newPk : ShareKey) (newSk : ShareSecretKey)
    (csprng : Rng) :
    tree.encryptNewSecretStoreForParent 𝒞 (node k p) pk sk newPk newSk csprng
      = tree'.encryptNewSecretStoreForParent 𝒞 (node k p) pk sk newPk newSk csprng := by
  have low := shaped.low
  have other := inside.twin below
  have enough : k < walkFuel := by unfold walkFuel; omega
  have idxs : tree.resolutionIdxs k (twin p) = tree'.resolutionIdxs k (twin p) := by
    unfold resolutionIdxs
    rw [resolution_congr same]
  have keys : ∀ idx ∈ tree'.resolutionIdxs k (twin p),
      tree.nodeKeyForIndex idx = tree'.nodeKeyForIndex idx := by
    intro idx member
    obtain ⟨⟨j, q⟩, there, rfl⟩ := List.mem_map.mp member
    have under := (mem_cover.mp there).1
    rw [shaped.nodeKeyForIndex_eq (other.of_under under),
      shaped'.nodeKeyForIndex_eq (other.of_under under), same j q under]
  unfold encryptNewSecretStoreForParent
  rw [sibling_node (by omega) (inside.pos_lt_u32 (by omega)) ((inside.parent below).pos_lt_u32 (by omega)),
    shaped.appendResolution_eq other enough, shaped'.appendResolution_eq other enough, idxs, document]
  simp only [bind, Except.bind, List.nil_append]
  rw [encryptForResolution_congr 𝒞 document _ _ _ keys]

/-- **The stores that encrypting writes above node `p` of level `k`**, whose key pair is `pk` and
`sk`. -/
def Stores (tree : BeeKem) : Nat → Nat → ShareKey → ShareSecretKey → Rng → List InnerNode → Prop
  | _, _, _, _, _, [] => True
  | k, p, pk, sk, csprng, store :: rest =>
    ∃ csprng', tree.encryptNewSecretStoreForParent 𝒞 (node k p) pk sk
        ((sk.ratchetForward 𝒞).shareKey 𝒞) (sk.ratchetForward 𝒞) csprng = .ok (store, csprng') ∧
      Stores tree (k + 1) (p / 2) ((sk.ratchetForward 𝒞).shareKey 𝒞) (sk.ratchetForward 𝒞) csprng'
        rest

theorem twin_not_under {k p j q : Nat} (under : Under k (twin p) j q) : ¬ Under k p j q := fun here =>
  twin_ne p (under.2.symm.trans here.2)

/-- The stores depend on the nodes off the path only. -/
theorem Stores.congr {tree tree' : BeeKem} {h : Nat} (shaped : tree.Shaped h)
    (shaped' : tree'.Shaped h) (document : tree.docId = tree'.docId) {k p : Nat} {pk : ShareKey}
    {sk : ShareSecretKey} {csprng : Rng} {stores : List InnerNode} (inside : Inside h k p)
    (fits : k + stores.length ≤ h)
    (same : ∀ j q, ¬ Under k p j q → tree.nodeAt j q = tree'.nodeAt j q)
    (written : Stores 𝒞 tree k p pk sk csprng stores) :
    Stores 𝒞 tree' k p pk sk csprng stores := by
  induction stores generalizing k p pk sk csprng with
  | nil => trivial
  | cons store rest ih =>
    rw [List.length_cons] at fits
    obtain ⟨csprng', here, later⟩ := written
    have below : k < h := by omega
    refine ⟨csprng', ?_, ih (inside.parent below) (by omega)
      (fun j q off => same j q fun under => off under.half) later⟩
    rw [← here]
    exact (shaped.encryptNewSecretStoreForParent_congr 𝒞 shaped' document inside below
      (fun j q under => same j q (twin_not_under under)) _ _ _ _ _).symm

end Stores

/-! ### Keys on a path -/

variable {tree tree' : BeeKem} {idxs : List Nat}

theorem keysOnPath_congr
    (same : ∀ idx ∈ idxs, tree.innerNodes[idx]? = tree'.innerNodes[idx]?) :
    tree.keysOnPath idxs = tree'.keysOnPath idxs := by
  induction idxs with
  | nil => rfl
  | cons idx rest ih =>
    have here : tree.keysAt idx = tree'.keysAt idx := by
      unfold keysAt innerNode
      rw [same idx List.mem_cons_self]
    rw [keysOnPath, keysOnPath, here, ih fun other member => same other (List.mem_cons_of_mem _ member)]

theorem nodeAt_set_inner {k p j q : Nat} {found : Option InnerNode}
    (apart : (j, q) ≠ (k + 1, p)) :
    ({ tree with innerNodes := tree.innerNodes.set (innerIdx (k + 1) p) found } : BeeKem).nodeAt j q
      = tree.nodeAt j q := by
  cases j with
  | zero => rfl
  | succ j =>
    rw [nodeAt, nodeAt, List.getElem?_set_ne]
    intro same
    obtain ⟨rfl, rfl⟩ := innerIdx_injective same
    exact apart rfl

/-! ### The loop -/

def writeNodes (path : List (Nat × InnerNode)) (nodes : List (Option InnerNode)) :
    List (Option InnerNode) :=
  path.foldl (fun nodes entry => nodes.set entry.1 (some entry.2)) nodes

variable {h : Nat} {pk : ShareKey} {sk : ShareSecretKey} {csprng : Rng}

/-- **The loop of `encryptPath`**: the stores above a node, the keys that they replace and the
secret of the root. -/
theorem encryptPathLoop_ok {𝒞 : Crypto} {k p fuel : Nat}
    (shaped : tree.Shaped h) (inside : Inside h k p) {rootSk : ShareSecretKey}
    {newPath newPath' : PathChange}
    (returns : encryptPathLoop 𝒞 fuel (node k p) pk sk newPath csprng tree
      = .ok (rootSk, newPath') tree') :
    ∃ stores removed, stores.length = h - k ∧
      tree.keysOnPath (above (h - k) k p) = .ok removed ∧
      newPath' = { newPath with
        path := newPath.path ++ (above (h - k) k p).zip stores
        removedKeys := newPath.removedKeys ++ removed } ∧
      tree' = { tree with innerNodes := writeNodes ((above (h - k) k p).zip stores) tree.innerNodes } ∧
      rootSk = sk.ratchetNForward 𝒞 (h - k) ∧ Stores 𝒞 tree k p pk sk csprng stores := by
  have low := shaped.low
  induction fuel generalizing tree k p pk sk newPath csprng with
  | zero => cases returns
  | succ fuel ih =>
    have level := inside.level
    simp only [encryptPathLoop, bind_ok_iff, get_ok_iff] at returns
    obtain ⟨_, _, ⟨rfl, rfl⟩, returns⟩ := returns
    rw [shaped.isRoot_node inside] at returns
    by_cases atRoot : k = h
    · rw [if_pos (by simpa using atRoot), pure_ok_iff] at returns
      obtain ⟨same, rfl⟩ := returns
      obtain ⟨rfl, rfl⟩ := Prod.mk.inj same
      subst atRoot
      refine ⟨[], [], by simp, by simp [above, keysOnPath, pure, Except.pure], ?_, ?_, ?_, trivial⟩
      · simp
      · simp [writeNodes]
      · simp [ShareSecretKey.ratchetNForward]
    · have below : k < h := by omega
      rw [if_neg (by simpa using atRoot), parent_node (by omega) (inside.pos_lt_u32 (by omega))] at returns
      simp only [bind_ok_iff, liftRes_ok_iff] at returns
      obtain ⟨removedHere, _, ⟨keys, rfl⟩, ⟨store, csprng'⟩, _, ⟨made, rfl⟩, tree₁, _,
        ⟨inserted, rfl⟩, _, _, sets, returns⟩ := returns
      rw [set_ok_iff] at sets
      subst sets
      unfold insertInnerNodeAt at inserted
      split at inserted
      case isFalse => simp at inserted
      obtain rfl := Except.ok.inj inserted
      have shaped₁ : ({ tree with
          innerNodes := tree.innerNodes.set (innerIdx (k + 1) (p / 2)) (some store) } : BeeKem).Shaped
            h :=
        shaped.withInner List.length_set tree.currentSecretEncrypterLeafIdx
      rw [← node_succ] at returns
      obtain ⟨stores, removed, length, later, rfl, rfl, rfl, written⟩ :=
        ih shaped₁ (inside.parent below) returns
      have untouched : tree.keysOnPath (above (h - (k + 1)) (k + 1) (p / 2)) = .ok removed := by
        rw [← later]
        refine keysOnPath_congr fun idx member => ?_
        refine (List.getElem?_set_ne fun same => ?_).symm
        exact innerIdx_not_mem_above (same ▸ member)
      have unroll : above (h - k) k p
          = innerIdx (k + 1) (p / 2) :: above (h - (k + 1)) (k + 1) (p / 2) := by
        rw [show h - k = h - (k + 1) + 1 by omega]
        rfl
      refine ⟨store :: stores, removedHere ++ removed, ?_, ?_, ?_, ?_, ?_, csprng', made, ?_⟩
      · rw [List.length_cons, length]
        omega
      · rw [unroll, keysOnPath, keys, untouched]
        rfl
      · rw [unroll, List.zip_cons_cons]
        simp only [List.append_assoc, List.singleton_append]
      · rw [unroll, List.zip_cons_cons]
        rfl
      · rw [ShareSecretKey.ratchetNForward, ShareSecretKey.ratchetNForward,
          show h - k = h - (k + 1) + 1 by omega, Function.iterate_succ_apply]
      · refine written.congr 𝒞 shaped₁ shaped rfl (inside.parent below) (by omega) ?_
        intro j q off
        refine nodeAt_set_inner fun same => off ?_
        obtain ⟨rfl, rfl⟩ := Prod.mk.inj same
        exact under_refl _ _

variable {stores : List InnerNode} {nodes : List (Option InnerNode)}

theorem getElem?_writeNodes {n k p : Nat} (length : stores.length = n)
    (bounds : ∀ idx ∈ above n k p, idx < nodes.length) (j q : Nat) :
    (writeNodes ((above n k p).zip stores) nodes)[innerIdx (j + 1) q]?
      = if k ≤ j ∧ j < k + n ∧ q = p / 2 ^ (j + 1 - k) then stores[j - k]?.map some
        else nodes[innerIdx (j + 1) q]? := by
  induction n generalizing k p stores nodes with
  | zero => rw [above, List.zip_nil_left, if_neg (by omega)]; rfl
  | succ n ih =>
    obtain ⟨store, rest, rfl⟩ := List.exists_cons_of_length_eq_add_one length
    rw [above, List.forall_mem_cons] at bounds
    show (writeNodes ((above n (k + 1) (p / 2)).zip rest)
      (nodes.set (innerIdx (k + 1) (p / 2)) (some store)))[innerIdx (j + 1) q]? = _
    rw [ih (by simpa using length) (by simpa using bounds.2)]
    rcases Nat.lt_trichotomy j k with under | rfl | beyond
    · have apart : innerIdx (k + 1) (p / 2) ≠ innerIdx (j + 1) q := fun same => by
        have := (innerIdx_injective same).1
        omega
      rw [if_neg (by omega), if_neg (by omega), List.getElem?_set_ne apart]
    · rw [if_neg (by omega), Nat.add_sub_cancel_left, pow_one]
      by_cases here : q = p / 2
      · subst here
        rw [if_pos ⟨Nat.le_refl j, by omega, rfl⟩, List.getElem?_set_self bounds.1]
        simp
      · have apart : innerIdx (j + 1) (p / 2) ≠ innerIdx (j + 1) q := fun same =>
          here (innerIdx_injective same).2.symm
        rw [if_neg (fun all => here all.2.2), List.getElem?_set_ne apart]
    · have apart : innerIdx (k + 1) (p / 2) ≠ innerIdx (j + 1) q := fun same => by
        have := (innerIdx_injective same).1
        omega
      have halves : p / 2 / 2 ^ (j + 1 - (k + 1)) = p / 2 ^ (j + 1 - k) := by
        rw [show j + 1 - k = j + 1 - (k + 1) + 1 by omega, pow_succ', Nat.div_div_eq_div_mul]
      have step : (store :: rest)[j - k]? = rest[j - (k + 1)]? := by
        rw [show j - k = j - (k + 1) + 1 by omega, List.getElem?_cons_succ]
      rw [halves, List.getElem?_set_ne apart, step]
      congr 1
      exact propext ⟨fun all => ⟨by omega, by omega, all.2.2⟩, fun all => ⟨by omega, by omega, all.2.2⟩⟩

/-! ### The whole call -/

def encryptedChange (h idx : Nat) (id : MemberId) (pk : ShareKey) (stores : List InnerNode)
    (removedKeys : List ShareKey) : PathChange :=
  { leafId := id
    leafIdx := idx
    leafPk := .shareKey pk
    path := (above h 0 idx).zip stores
    removedKeys }

def encryptedTree (tree : BeeKem) (h idx : Nat) (id : MemberId) (pk : ShareKey)
    (stores : List InnerNode) : BeeKem :=
  { tree with
    leaves := tree.leaves.set idx (some ⟨id, .shareKey pk⟩)
    innerNodes := writeNodes ((above h 0 idx).zip stores) tree.innerNodes
    currentSecretEncrypterLeafIdx := some idx }

variable {id : MemberId} {sks : ShareKeyMap} {pcsKey : PcsKey} {change : PathChange}

/-- **What a call of `encryptPath` that succeeds returns.** -/
theorem Shaped.encryptPath_ok {𝒞 : Crypto} (shaped : tree.Shaped h)
    (returns : encryptPath 𝒞 id pk sks csprng tree = .ok (pcsKey, change) tree') :
    ∃ idx old sk stores removed, tree.idToLeafIdx[id]? = some idx ∧
      tree.leaves[idx]? = some (some old) ∧ sks[pk]? = some sk ∧ stores.length = h ∧
      tree.keysOnPath (above h 0 idx) = .ok removed ∧
      change = encryptedChange h idx id pk stores (old.pk.keys ++ removed) ∧
      tree' = tree.encryptedTree h idx id pk stores ∧
      pcsKey = ⟨sk.ratchetNForward 𝒞 h⟩ ∧ Stores 𝒞 tree 0 idx pk sk csprng stores := by
  unfold encryptPath at returns
  simp only [bind_ok_iff, get_ok_iff, liftRes_ok_iff] at returns
  obtain ⟨_, _, ⟨rfl, rfl⟩, idx, _, ⟨found, rfl⟩, key, _, ⟨leafKey, rfl⟩, tree₁, _, ⟨inserted, rfl⟩,
    _, _, sets, returns⟩ := returns
  rw [set_ok_iff] at sets
  subst sets
  have present := leafIndexForId_ok_iff.mp found
  have within := shaped.index _ _ present
  rw [shaped.insertLeafAt_eq within] at inserted
  obtain rfl := Except.ok.inj inserted
  obtain ⟨old, here, rfl⟩ : ∃ old, tree.leaves[idx]? = some (some old) ∧ key = old.pk := by
    simp only [nodeKeyForId, nodeKeyForIndex, except_bind_ok_iff] at leafKey
    obtain ⟨_, again, leaf, read, leafKey⟩ := leafKey
    rw [found] at again
    obtain rfl := Except.ok.inj again
    cases leaf with
    | none => simp at leafKey
    | some old => exact ⟨old, leaf_ok_iff.mp read, (Except.ok.inj leafKey).symm⟩
  cases secret : sks[pk]? with
  | none =>
    rw [secret] at returns
    cases returns
  | some sk =>
    rw [secret] at returns
    simp only [bind_ok_iff, pure_ok_iff] at returns
    obtain ⟨⟨rootSk, newPath⟩, tree₂, runs, _, _, modifies, result, rfl⟩ := returns
    obtain ⟨rfl, rfl⟩ := Prod.mk.inj result
    have shapedLeaf := shaped.setLeaf idx (some ⟨id, .shareKey pk⟩)
    rw [← node_zero] at runs
    obtain ⟨stores, removed, length, keys, rfl, rfl, rfl, written⟩ :=
      encryptPathLoop_ok shapedLeaf (inside_leaf.mpr within) runs
    obtain rfl := (EStateM.Result.ok.inj modifies).2
    refine ⟨idx, old, sk, stores, removed, present, here, rfl, length, ?_, rfl, rfl, rfl, ?_⟩
    · rw [← keys]
      exact keysOnPath_congr fun _ _ => rfl
    · refine written.congr 𝒞 shapedLeaf shaped rfl (inside_leaf.mpr within) (by omega) ?_
      -- The new leaf is at the bottom of the path.
      intro j q off
      cases j with
      | zero =>
        rw [nodeAt, nodeAt, List.getElem?_set_ne]
        rintro rfl
        exact off (under_refl 0 _)
      | succ j => rfl

/-! ### Applying the change -/

variable {removedKeys : List ShareKey}

theorem merge_of_removed {old : NodeKey}
    (removed : ∀ key ∈ old.keys, key ∈ removedKeys) :
    old.merge (.shareKey pk) removedKeys = .shareKey pk := by
  cases old with
  | shareKey key => exact if_pos (removed key (by simp [NodeKey.keys]))
  | conflictKeys keys =>
    have kept : ((NodeKey.conflictKeys keys).keys.filter fun k => k ∉ removedKeys) = [] := by
      rw [List.filter_eq_nil_iff]
      intro key member
      simpa using removed key member
    unfold NodeKey.merge
    simp only [kept]
    rfl

variable {idx : Nat} {store : InnerNode}

theorem keysAt_ok {keys : List ShareKey}
    (here : tree.innerNodes[idx]? = some (some store)) (read : tree.keysAt idx = .ok keys) :
    keys = store.versions.map fun version => version.pk := by
  unfold keysAt at read
  simp only [innerNode_ok_iff.mpr here, bind, Except.bind, pure, Except.pure, SecretStore.nodeKey] at read
  cases versions : store.versions with
  | nil => simp [versions, NodeKey.ofKeys] at read
  | cons first rest =>
    cases rest with
    | nil => simpa [versions, NodeKey.ofKeys, NodeKey.keys] using read.symm
    | cons second more => simpa [versions, NodeKey.ofKeys, NodeKey.keys] using read.symm

theorem mem_keysOnPath {removed : List ShareKey}
    (keys : tree.keysOnPath idxs = .ok removed) (member : idx ∈ idxs)
    (here : tree.innerNodes[idx]? = some (some store))
    {version : SecretStoreVersion} (present : version ∈ store.versions) : version.pk ∈ removed := by
  induction idxs generalizing removed with
  | nil => simp at member
  | cons first rest ih =>
    simp only [keysOnPath, except_bind_ok_iff] at keys
    obtain ⟨keysHere, read, keysAbove, later, result⟩ := keys
    obtain rfl := except_pure_ok_iff.mp result
    rw [List.mem_append]
    rcases List.mem_cons.mp member with rfl | member
    · left
      rw [keysAt_ok here read]
      exact List.mem_map_of_mem present
    · exact .inr (ih later member)

theorem mergeNodes_eq_writeNodes {path : List (Nat × InnerNode)} (distinct : (path.map Prod.fst).Nodup)
    (removed : ∀ idx ∈ path.map Prod.fst, ∀ store, nodes[idx]? = some (some store) →
      ∀ version ∈ store.versions, version.pk ∈ removedKeys) :
    mergeNodes removedKeys path nodes = writeNodes path nodes := by
  induction path generalizing nodes with
  | nil => rfl
  | cons entry rest ih =>
    obtain ⟨idx, store⟩ := entry
    rw [List.map_cons, List.nodup_cons] at distinct
    have here : mergeInto removedKeys nodes[idx]?.join store = store := by
      cases current : nodes[idx]?.join with
      | none => rfl
      | some old =>
        have gone := removed idx (by simp) old (Option.join_eq_some_iff.mp current)
        have empty : (old.removeKeysFrom removedKeys).versions = [] := by
          unfold SecretStore.removeKeysFrom
          rw [List.filter_eq_nil_iff]
          intro version member
          simpa using gone version member
        show SecretStore.mk ((old.removeKeysFrom removedKeys).versions ++ store.versions) = store
        rw [empty, List.nil_append]
    show mergeNodes removedKeys rest (nodes.set idx (some (mergeInto _ _ store))) = _
    rw [here]
    refine ih distinct.2 fun other member found there => ?_
    rw [List.getElem?_set_ne (by rintro rfl; exact distinct.1 member)] at there
    exact removed other (List.mem_cons_of_mem _ member) found there

theorem encryptNewSecretStoreForParent_ok {𝒞 : Crypto} {childIdx : TreeNodeIndex}
    {newPk : ShareKey} {newSk : ShareSecretKey} {csprng' : Rng}
    (made : tree.encryptNewSecretStoreForParent 𝒞 childIdx pk sk newPk newSk csprng
      = .ok (store, csprng')) : ∃ secrets, store = .new newPk pk secrets := by
  simp only [encryptNewSecretStoreForParent, except_bind_ok_iff] at made
  obtain ⟨resolved, -, made⟩ := made
  split at made
  · simp only [except_bind_ok_iff, except_pure_ok_iff] at made
    obtain ⟨encrypted, -, result⟩ := made
    exact ⟨_, (Prod.mk.inj result).1.symm⟩
  · simp only [except_bind_ok_iff, except_pure_ok_iff] at made
    obtain ⟨secrets, -, result⟩ := made
    exact ⟨_, (Prod.mk.inj result).1.symm⟩

/-- Each store of a path holds one version, with the keys that the ratchet gives. -/
theorem Stores.version {𝒞 : Crypto} {k p : Nat} (written : Stores 𝒞 tree k p pk sk csprng stores)
    (member : store ∈ stores) : ∃ version, store.versions = [version] := by
  induction stores generalizing k p pk sk csprng with
  | nil => simp at member
  | cons first rest ih =>
    obtain ⟨csprng', made, later⟩ := written
    rcases List.mem_cons.mp member with rfl | member
    · obtain ⟨secrets, rfl⟩ := encryptNewSecretStoreForParent_ok made
      exact ⟨_, rfl⟩
    · exact ih later member

theorem rootKeyed_encryptedTree {𝒞 : Crypto} (shaped : tree.Shaped h)
    (within : idx < 2 ^ h) (length : stores.length = h)
    (written : Stores 𝒞 tree 0 idx pk sk csprng stores) :
    rootKeyed h (writeNodes ((above h 0 idx).zip stores) tree.innerNodes) = true := by
  obtain ⟨k, rfl⟩ := Nat.exists_eq_add_of_le' shaped.positive
  have bounds : ∀ found ∈ above (k + 1) 0 idx, found < tree.innerNodes.length := fun found member => by
    rw [shaped.inner]
    exact lt_of_mem_above (inside_leaf.mpr within) (by simpa using member)
  have last : k < stores.length := by omega
  obtain ⟨version, single⟩ := written.version (List.getElem_mem last)
  unfold rootKeyed
  rw [getElem?_writeNodes length bounds,
    if_pos ⟨Nat.zero_le k, by omega, (Nat.div_eq_of_lt (by simpa using within)).symm⟩, Nat.sub_zero,
    List.getElem?_eq_getElem last]
  simp [SecretStore.hasConflict, single]

/-- **The encrypter of a path** is on record, and the root has the one key that comes of their leaf. -/
theorem Shaped.encryptPath_root {𝒞 : Crypto} (shaped : tree.Shaped h)
    (returns : encryptPath 𝒞 id pk sks csprng tree = .ok (pcsKey, change) tree') :
    tree'.Shaped h ∧ tree'.hasRootKey = .ok true ∧ tree'.idToLeafIdx = tree.idToLeafIdx ∧
      ∃ idx sk, tree.idToLeafIdx[id]? = some idx ∧ tree'.currentSecretEncrypterLeafIdx = some idx ∧
        tree'.leaves[idx]? = some (some ⟨id, .shareKey pk⟩) ∧ sks[pk]? = some sk ∧
        pcsKey = ⟨sk.ratchetNForward 𝒞 h⟩ := by
  have frame := shaped.encryptPath_frame 𝒞 id pk sks csprng
  rw [returns] at frame
  have shaped' : tree'.Shaped h := shaped.rekeyed frame
  obtain ⟨idx, old, sk, stores, removed, present, -, secret, length, -, -, rfl, key, written⟩ :=
    shaped.encryptPath_ok returns
  have within := shaped.index _ _ present
  refine ⟨shaped', ?_, rfl, idx, sk, present, rfl, ?_, secret, key⟩
  · rw [shaped'.hasRootKey_eq]
    exact congrArg Except.ok (rootKeyed_encryptedTree shaped within length written)
  · exact List.getElem?_set_self (by rw [shaped.leaves]; exact within)

/-- **A change made on a tree**: one version for each node of the path of a leaf, and among the removed keys all those
that the leaf and its path had. -/
structure Made (tree : BeeKem) (h idx : Nat) (change : PathChange) : Prop where
  present : tree.idToLeafIdx[change.leafId]? = some idx
  fits : Fits h idx change
  onPath : change.path.map Prod.fst = above h 0 idx
  single : ∀ entry ∈ change.path, ∃ version, entry.2.versions = [version]
  leaf : ∃ old pk, tree.leaves[idx]? = some (some old) ∧ change.leafPk = .shareKey pk ∧
    ∀ key ∈ old.pk.keys, key ∈ change.removedKeys
  removed : ∀ j ∈ above h 0 idx, ∀ store, tree.innerNodes[j]? = some (some store) →
    ∀ version ∈ store.versions, version.pk ∈ change.removedKeys

theorem Shaped.made {𝒞 : Crypto} (shaped : tree.Shaped h)
    (returns : encryptPath 𝒞 id pk sks csprng tree = .ok (pcsKey, change) tree') :
    change.leafId = id ∧ ∃ idx, Made tree h idx change := by
  obtain ⟨idx, old, sk, stores, removed, present, here, -, length, keys, rfl, rfl, -, written⟩ :=
    shaped.encryptPath_ok returns
  refine ⟨rfl, idx, present, ⟨?_, rfl⟩, List.map_fst_zip (by rw [length_above, length]), fun entry member => ?_,
    ⟨old, pk, here, rfl, fun key member => List.mem_append_left _ member⟩, fun j member store there version versions => ?_⟩
  · simp [encryptedChange, length_above, length]
  · exact written.version (List.of_mem_zip member).2
  · exact List.mem_append_right _ (mem_keysOnPath keys member there versions)

def takenOver (tree : BeeKem) (h idx : Nat) (change : PathChange) : BeeKem :=
  { tree with
    leaves := tree.leaves.set idx (some ⟨change.leafId, change.leafPk⟩)
    innerNodes := mergeNodes change.removedKeys change.path tree.innerNodes
    currentSecretEncrypterLeafIdx :=
      if rootKeyed h (mergeNodes change.removedKeys change.path tree.innerNodes) then some idx else none }

/-- **A change is taken over** by every tree of the same members in which the leaf has not changed. -/
theorem Made.applyPath_eq (made : Made tree h idx change) (shaped : tree'.Shaped h)
    (index : tree'.idToLeafIdx = tree.idToLeafIdx) (leaf : tree'.leaves[idx]? = tree.leaves[idx]?) :
    tree'.applyPath change = .ok (tree'.takenOver h idx change) := by
  obtain ⟨old, pk, here, isKey, removed⟩ := made.leaf
  have present : tree'.idToLeafIdx[change.leafId]? = some idx := index ▸ made.present
  have within := shaped.index _ _ present
  have reached : change.leafIdx % 2 ^ 31 < 2 ^ h := by
    have : 2 ^ h ≤ 2 ^ 31 := Nat.pow_le_pow_right (by omega) (by have := shaped.low; omega)
    rw [← made.fits.2, Nat.mod_eq_of_lt (by omega)]
    exact within
  have bounds : ∀ entry ∈ change.path, entry.1 < 2 ^ h - 1 := fun entry member =>
    lt_of_mem_above (inside_leaf.mpr within)
      (by rw [Nat.sub_zero, ← made.onPath]; exact List.mem_map_of_mem member)
  rw [shaped.applyPath_eq present, if_pos reached, leaf, here]
  simp only [Option.join_some]
  rw [if_neg fun outside => outside.2 bounds]
  unfold BeeKem.appliedPath mergedLeaves takenOver
  rw [if_pos made.fits, isKey, merge_of_removed removed]

/-- The stores of a change replace those that were there. -/
theorem Made.mergeNodes_eq (made : Made tree h idx change) :
    mergeNodes change.removedKeys change.path tree.innerNodes = writeNodes change.path tree.innerNodes := by
  refine mergeNodes_eq_writeNodes (by rw [made.onPath]; exact nodup_above _ _ _) ?_
  rw [made.onPath]
  exact made.removed

theorem Shaped.encryptPath_applyPath {𝒞 : Crypto} (shaped : tree.Shaped h)
    (returns : encryptPath 𝒞 id pk sks csprng tree = .ok (pcsKey, change) tree') :
    tree.applyPath change = .ok tree' := by
  obtain ⟨-, idx, made⟩ := shaped.made returns
  obtain ⟨idx', old, sk, stores, removed, present, -, -, length, -, rfl, rfl, -, written⟩ :=
    shaped.encryptPath_ok returns
  obtain rfl : idx' = idx := made.fits.2.symm
  have within := shaped.index _ _ present
  rw [made.applyPath_eq shaped rfl rfl]
  unfold takenOver
  rw [made.mergeNodes_eq]
  simp only [encryptedChange, rootKeyed_encryptedTree shaped within length written, if_true]
  rfl

end BeeKem

end KeyhiveEval.Beekem
