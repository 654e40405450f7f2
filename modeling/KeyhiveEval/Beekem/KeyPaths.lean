/-
**Changes of the keys: what applying and encrypting a path leave.**

* `applyPath_eq` — applying a change, written out for a shaped tree. The length of the path of the
  sender's leaf is computed first, so a leaf outside the tree makes the call run for ever
  (`directPathLoop_outside`).
* `mergeNodes` — the inner nodes after the stores of a path were merged in; `getElem?_mergeNodes`
  gives each one.
* `encryptPath_frame` — encrypting a path changes one leaf, inner nodes and the encrypter, also
  when it fails half-way.
-/

import KeyhiveEval.Beekem.Membership

namespace KeyhiveEval.Beekem

open Std PerfectTree Stateful

theorem after_liftRes {σ α : Type} {value : Res α} {state : σ} {post : α → σ → Prop}
    {fail : Fault → σ → Prop} :
    After (liftRes value state) post fail
      ↔ match value with
        | .ok a => post a state
        | .error fault => fail fault state := by
  cases value <;> rfl

theorem liftRes_ok_iff {σ α : Type} {value : Res α} {state state' : σ} {a : α} :
    liftRes value state = .ok a state' ↔ value = .ok a ∧ state = state' := by
  cases value <;> simp [liftRes]

namespace BeeKem

/-! ### Single nodes -/

variable {tree : BeeKem} {h : Nat}

theorem Shaped.insertLeafAt_eq {idx : Nat} (shaped : tree.Shaped h)
    (within : idx < 2 ^ h) (id : MemberId) (pk : NodeKey) :
    tree.insertLeafAt idx id pk
      = .ok { tree with leaves := tree.leaves.set idx (some ⟨id, pk⟩) } := by
  unfold insertLeafAt
  rw [if_pos (by rw [shaped.leaves]; exact within)]

theorem Shaped.setLeaf (shaped : tree.Shaped h) (idx : Nat)
    (leaf : Option LeafNode) :
    ({ tree with leaves := tree.leaves.set idx leaf } : BeeKem).Shaped h :=
  { shaped with leaves := List.length_set.trans shaped.leaves }

theorem Shaped.withInner (shaped : tree.Shaped h)
    {nodes : List (Option InnerNode)} (length : nodes.length = tree.innerNodes.length)
    (encrypter : Option Nat) :
    ({ tree with innerNodes := nodes, currentSecretEncrypterLeafIdx := encrypter } : BeeKem).Shaped
      h :=
  { shaped with inner := length.trans shaped.inner }

/-- Whether the root holds exactly one version. -/
def rootKeyed (h : Nat) (nodes : List (Option InnerNode)) : Bool :=
  match nodes[innerIdx h 0]? with
  | some (some store) => !store.hasConflict
  | _ => false

theorem Shaped.hasRootKey_eq (shaped : tree.Shaped h) :
    tree.hasRootKey = .ok (rootKeyed h tree.innerNodes) := by
  obtain ⟨k, rfl⟩ := Nat.exists_eq_add_of_le' shaped.positive
  have bound : innerIdx (k + 1) 0 < tree.innerNodes.length := by
    rw [shaped.inner]
    exact root_lt shaped.positive
  unfold hasRootKey rootKeyed innerNode
  rw [shaped.size, root_ofHeight, node_succ]
  simp only [List.getElem?_eq_getElem bound, bind, Except.bind, pure, Except.pure]
  cases tree.innerNodes[innerIdx (k + 1) 0] <;> rfl

/-! ### Merging stores -/

def mergeInto (removedKeys : List ShareKey) (current : Option InnerNode) (store : InnerNode) :
    InnerNode :=
  match current with
  | none => store
  | some node => node.merge store removedKeys

/-- The inner nodes after the stores of a path were merged in. -/
def mergeNodes (removedKeys : List ShareKey) (path : List (Nat × InnerNode))
    (nodes : List (Option InnerNode)) : List (Option InnerNode) :=
  path.foldl (fun nodes entry =>
    nodes.set entry.1 (some (mergeInto removedKeys nodes[entry.1]?.join entry.2))) nodes

theorem length_mergeNodes (removedKeys : List ShareKey) (path : List (Nat × InnerNode))
    (nodes : List (Option InnerNode)) :
    (mergeNodes removedKeys path nodes).length = nodes.length := by
  induction path generalizing nodes with
  | nil => rfl
  | cons entry path ih => exact (ih _).trans List.length_set

/-- What a path writes on one node, one store after the other. -/
def rewriteNode (removedKeys : List ShareKey) (path : List (Nat × InnerNode)) (j : Nat)
    (current : Option InnerNode) : Option InnerNode :=
  (path.filter fun entry => entry.1 = j).foldl
    (fun current entry => some (mergeInto removedKeys current entry.2)) current

theorem getElem?_mergeNodes (removedKeys : List ShareKey) (path : List (Nat × InnerNode))
    (nodes : List (Option InnerNode)) (j : Nat) :
    (mergeNodes removedKeys path nodes)[j]?
      = nodes[j]?.map (rewriteNode removedKeys path j) := by
  induction path generalizing nodes with
  | nil =>
    show nodes[j]? = nodes[j]?.map id
    simp
  | cons entry path ih =>
    show (mergeNodes removedKeys path (nodes.set entry.1 _))[j]? = _
    rw [ih, List.getElem?_set]
    by_cases here : entry.1 = j
    · subst here
      by_cases bound : entry.1 < nodes.length
      · rw [if_pos rfl, if_pos bound, List.getElem?_eq_getElem bound]
        unfold rewriteNode
        rw [Option.map_some, Option.map_some, List.filter_cons_of_pos (by simp), List.foldl_cons]
        rfl
      · rw [if_pos rfl, if_neg bound, List.getElem?_eq_none (Nat.le_of_not_lt bound)]
        rfl
    · rw [if_neg here]
      congr 1
      funext current
      unfold rewriteNode
      rw [List.filter_cons_of_neg (by simpa using here)]

section Rewrite

variable (removedKeys : List ShareKey) {path : List (Nat × InnerNode)} {j : Nat}

theorem rewriteNode_of_not_mem (absent : ∀ store, (j, store) ∉ path) (current : Option InnerNode) :
    rewriteNode removedKeys path j current = current := by
  have empty : path.filter (fun entry => entry.1 = j) = [] := by
    rw [List.filter_eq_nil_iff]
    rintro ⟨idx, store⟩ member same
    exact absent store (of_decide_eq_true same ▸ member)
  unfold rewriteNode
  rw [empty, List.foldl_nil]

theorem rewriteNode_of_mem {store : InnerNode} (distinct : (path.map Prod.fst).Nodup) (member : (j, store) ∈ path)
    (current : Option InnerNode) :
    rewriteNode removedKeys path j current = some (mergeInto removedKeys current store) := by
  induction path with
  | nil => simp at member
  | cons entry rest ih =>
    obtain ⟨absent, distinct⟩ := List.nodup_cons.mp distinct
    rcases List.mem_cons.mp member with rfl | later
    · have none := rewriteNode_of_not_mem removedKeys
        (fun other inside => absent (List.mem_map.mpr ⟨(j, other), inside, rfl⟩))
        (some (mergeInto removedKeys current store))
      unfold rewriteNode at none ⊢
      rw [List.filter_cons_of_pos (by simp), List.foldl_cons, none]
    · have elsewhere : entry.1 ≠ j := fun same => absent (List.mem_map.mpr ⟨(j, store), later, same.symm⟩)
      have here := ih distinct later
      unfold rewriteNode at here ⊢
      rwa [List.filter_cons_of_neg (by simpa using elsewhere)]

end Rewrite

theorem mergePath_eq (removedKeys : List ShareKey) (path : List (Nat × InnerNode)) (tree : BeeKem) :
    mergePath removedKeys path tree
      = if ∀ entry ∈ path, entry.1 < tree.innerNodes.length then
          .ok { tree with innerNodes := mergeNodes removedKeys path tree.innerNodes }
        else .error (.panic "Node should not be blank") := by
  induction path generalizing tree with
  | nil => rfl
  | cons entry path ih =>
    obtain ⟨idx, store⟩ := entry
    unfold mergePath
    by_cases bound : idx < tree.innerNodes.length
    · have step : ∀ node, tree.insertInnerNodeAt idx node
          = .ok { tree with innerNodes := tree.innerNodes.set idx (some node) } := fun node => by
        unfold insertInnerNodeAt
        rw [if_pos bound]
      have rest : ∀ node, mergePath removedKeys path
            { tree with innerNodes := tree.innerNodes.set idx (some node) }
          = if ∀ entry ∈ (idx, store) :: path, entry.1 < tree.innerNodes.length then
              .ok { tree with
                innerNodes := mergeNodes removedKeys path (tree.innerNodes.set idx (some node)) }
            else .error (.panic "Node should not be blank") := fun node => by
        rw [ih]
        simp only [List.length_set, List.forall_mem_cons, bound, true_and]
      unfold mergeNodes
      rw [List.foldl_cons, List.getElem?_eq_getElem bound]
      cases current : tree.innerNodes[idx] with
      | none =>
        simp only [step, bind, Except.bind, rest]
        rfl
      | some node =>
        simp only [step, bind, Except.bind, rest]
        rfl
    · have outside : ¬ ∀ entry ∈ (idx, store) :: path, entry.1 < tree.innerNodes.length :=
        fun all => bound (all _ List.mem_cons_self)
      rw [if_neg outside, List.getElem?_eq_none (Nat.le_of_not_lt bound)]

/-! ### Applying a path -/

/-- Whether a change fits the tree: its length is that of the path of the leaf and its leaf is
where the member is. -/
def Fits (h leafIdx : Nat) (newPath : PathChange) : Prop :=
  newPath.path.length = h ∧ leafIdx = newPath.leafIdx

instance (h leafIdx : Nat) (newPath : PathChange) : Decidable (Fits h leafIdx newPath) :=
  inferInstanceAs (Decidable (_ ∧ _))

def mergedLeaves (tree : BeeKem) (leafIdx : Nat) (old : LeafNode) (newPath : PathChange) :
    List (Option LeafNode) :=
  tree.leaves.set leafIdx
    (some ⟨newPath.leafId, old.pk.merge newPath.leafPk newPath.removedKeys⟩)

variable {newPath : PathChange}

theorem Shaped.isValidPath_eq {leafIdx : Nat} (shaped : tree.Shaped h)
    (present : tree.idToLeafIdx[newPath.leafId]? = some leafIdx) :
    tree.isValidPath newPath
      = if newPath.leafIdx % 2 ^ 31 < 2 ^ h then .ok (decide (Fits h leafIdx newPath))
        else .error .diverge := by
  unfold isValidPath
  rw [present, shaped.size, directPath_leaf shaped.low]
  split
  · simp only [bind, Except.bind, pure, Except.pure, length_above, beq_eq_decide]
    congr 1
    exact (Bool.decide_and _ _).symm
  · rfl

def appliedPath (tree : BeeKem) (h leafIdx : Nat) (old : LeafNode) (newPath : PathChange) :
    BeeKem :=
  if Fits h leafIdx newPath then
    let nodes := mergeNodes newPath.removedKeys newPath.path tree.innerNodes
    { tree with
      leaves := tree.mergedLeaves leafIdx old newPath
      innerNodes := nodes
      currentSecretEncrypterLeafIdx := if rootKeyed h nodes then some leafIdx else none }
  else { tree with leaves := tree.mergedLeaves leafIdx old newPath }.withBlanked (above h 0 leafIdx)

/-- **Applying a change**, with everything that can go wrong. -/
theorem Shaped.applyPath_eq {leafIdx : Nat} (shaped : tree.Shaped h)
    (present : tree.idToLeafIdx[newPath.leafId]? = some leafIdx) :
    tree.applyPath newPath
      = if newPath.leafIdx % 2 ^ 31 < 2 ^ h then
          match tree.leaves[leafIdx]?.join with
          | none => .error (.panic (if Fits h leafIdx newPath
              then "called `Option::unwrap()` on a `None` value"
              else "Leaf for present ID should not be None"))
          | some old =>
            if Fits h leafIdx newPath ∧ ¬ ∀ entry ∈ newPath.path, entry.1 < 2 ^ h - 1 then
              .error (.panic "Node should not be blank")
            else .ok (tree.appliedPath h leafIdx old newPath)
        else .error .diverge := by
  have within := shaped.index _ _ present
  obtain ⟨found, here, read⟩ := shaped.leaf_eq within
  unfold applyPath
  rw [present]
  simp only [shaped.isValidPath_eq present]
  split
  · simp only [bind, Except.bind, read, here, Option.join_some]
    cases found with
    | none => simp
    | some old =>
      have shapedLeaf := shaped.setLeaf leafIdx
        (some ⟨newPath.leafId, old.pk.merge newPath.leafPk newPath.removedKeys⟩)
      simp only [shaped.insertLeafAt_eq within, decide_eq_true_eq]
      unfold appliedPath
      by_cases fits : Fits h leafIdx newPath
      · simp only [fits, true_and, mergePath_eq, shaped.inner]
        by_cases bounds : ∀ entry ∈ newPath.path, entry.1 < 2 ^ h - 1
        · have shapedNodes := shapedLeaf.withInner
            (length_mergeNodes newPath.removedKeys newPath.path tree.innerNodes)
            tree.currentSecretEncrypterLeafIdx
          simp only [if_pos bounds, if_neg (not_not_intro bounds), shapedNodes.hasRootKey_eq, pure,
            Except.pure]
          by_cases keyed : rootKeyed h
              (mergeNodes newPath.removedKeys newPath.path tree.innerNodes) = true
          · simp only [keyed, if_true]
            rfl
          · simp only [keyed]
            rfl
        · rw [if_neg bounds, if_pos bounds]
          rfl
      · simp only [fits, if_false, false_and, shapedLeaf.blankPath_leaf within]
        rfl
  · rfl

theorem Shaped.applyPath_ok {tree' : BeeKem} (shaped : tree.Shaped h) (applies : tree.applyPath newPath = .ok tree') :
    (tree.idToLeafIdx[newPath.leafId]? = none ∧ tree' = tree) ∨
      ∃ leafIdx old, tree.idToLeafIdx[newPath.leafId]? = some leafIdx ∧
        tree.leaves[leafIdx]? = some (some old) ∧
        tree' = tree.appliedPath h leafIdx old newPath := by
  cases present : tree.idToLeafIdx[newPath.leafId]? with
  | none =>
    unfold applyPath at applies
    rw [present] at applies
    exact .inl ⟨rfl, (Except.ok.inj applies).symm⟩
  | some leafIdx =>
    rw [shaped.applyPath_eq present] at applies
    split at applies
    · cases found : tree.leaves[leafIdx]?.join with
      | none =>
        rw [found] at applies
        simp at applies
      | some old =>
        rw [found] at applies
        simp only at applies
        split at applies
        · simp at applies
        · exact .inr ⟨leafIdx, old, rfl, Option.join_eq_some_iff.mp found,
            (Except.ok.inj applies).symm⟩
    · simp at applies

theorem Shaped.appliedPath (shaped : tree.Shaped h) (leafIdx : Nat)
    (old : LeafNode) (newPath : PathChange) : (tree.appliedPath h leafIdx old newPath).Shaped h := by
  have shapedLeaf := shaped.setLeaf leafIdx
    (some ⟨newPath.leafId, old.pk.merge newPath.leafPk newPath.removedKeys⟩)
  unfold BeeKem.appliedPath
  split
  · exact shapedLeaf.withInner (length_mergeNodes _ _ _) _
  · exact shapedLeaf.withBlanked _

/-! ### Encrypting a path -/

/-- The tree after a path was encrypted, at least in part: a new key on the leaf, and inner nodes. -/
def Rekeyed (id : MemberId) (pk : ShareKey) (tree tree' : BeeKem) : Prop :=
  ∃ idx nodes encrypter, tree.idToLeafIdx[id]? = some idx ∧
    nodes.length = tree.innerNodes.length ∧
    tree' = { tree with
      leaves := tree.leaves.set idx (some ⟨id, .shareKey pk⟩)
      innerNodes := nodes
      currentSecretEncrypterLeafIdx := encrypter }

theorem encryptPathLoop_frame (𝒞 : Crypto) (fuel : Nat) (childIdx : TreeNodeIndex)
    (childPk : ShareKey) (childSk : ShareSecretKey) (newPath : PathChange) (csprng : Rng)
    (tree : BeeKem) :
    After (encryptPathLoop 𝒞 fuel childIdx childPk childSk newPath csprng tree)
      (fun _ tree' => ∃ nodes, nodes.length = tree.innerNodes.length ∧
        tree' = { tree with innerNodes := nodes })
      (fun _ tree' => ∃ nodes, nodes.length = tree.innerNodes.length ∧
        tree' = { tree with innerNodes := nodes }) := by
  have unchanged : ∃ nodes, nodes.length = tree.innerNodes.length ∧
      tree = { tree with innerNodes := nodes } := ⟨_, rfl, rfl⟩
  induction fuel generalizing childIdx childPk childSk newPath csprng tree with
  | zero => exact unchanged
  | succ fuel ih =>
    unfold encryptPathLoop
    simp only [after_bind, after_get, after_ite, after_pure, after_liftRes]
    refine ⟨fun _ => unchanged, fun _ => ?_⟩
    cases tree.keysAt (parent childIdx) with
    | error fault => exact unchanged
    | ok removedHere =>
      simp only
      cases tree.encryptNewSecretStoreForParent 𝒞 childIdx childPk childSk
          ((childSk.ratchetForward 𝒞).shareKey 𝒞) (childSk.ratchetForward 𝒞) csprng with
      | error fault => exact unchanged
      | ok made =>
        simp only
        cases inserted : tree.insertInnerNodeAt (parent childIdx) made.1 with
        | error fault => exact unchanged
        | ok tree' =>
          unfold insertInnerNodeAt at inserted
          split at inserted
          · obtain rfl := Except.ok.inj inserted
            simp only [after_set]
            refine (ih _ _ _ _ _ _ ⟨_, rfl, rfl⟩).mono ?_ ?_
            · rintro - - ⟨nodes, length, rfl⟩
              exact ⟨nodes, length.trans List.length_set, rfl⟩
            · rintro - - ⟨nodes, length, rfl⟩
              exact ⟨nodes, length.trans List.length_set, rfl⟩
          · simp at inserted

/-- **Encrypting a path changes one leaf, inner nodes and the encrypter**, also when it fails. -/
theorem Shaped.encryptPath_frame (shaped : tree.Shaped h) (𝒞 : Crypto)
    (id : MemberId) (pk : ShareKey) (sks : ShareKeyMap) (csprng : Rng) :
    After (encryptPath 𝒞 id pk sks csprng tree)
      (fun _ tree' => Rekeyed id pk tree tree')
      (fun _ tree' => tree' = tree ∨ Rekeyed id pk tree tree') := by
  unfold encryptPath
  simp only [after_bind, after_get, after_liftRes]
  cases lookup : tree.leafIndexForId id with
  | error fault => exact .inl trivial
  | ok leafIdx =>
    simp only
    rw [leafIndexForId_ok_iff] at lookup
    cases tree.nodeKeyForId id with
    | error fault => exact .inl trivial
    | ok key =>
      simp only [shaped.insertLeafAt_eq (shaped.index _ _ lookup), after_set]
      cases sks[pk]? with
      | none => exact .inr ⟨leafIdx, tree.innerNodes, _, lookup, rfl, rfl⟩
      | some childSk =>
        simp only [after_bind, after_modify, after_pure]
        refine (encryptPathLoop_frame _ _ _ _ _ _ _ _).mono ?_ ?_
        · rintro - - ⟨nodes, length, rfl⟩
          exact ⟨leafIdx, nodes, _, lookup, length, rfl⟩
        · rintro - - ⟨nodes, length, rfl⟩
          exact .inr ⟨leafIdx, nodes, _, lookup, length, rfl⟩

theorem Shaped.rekeyed {tree' : BeeKem} {id : MemberId} {pk : ShareKey}
    (shaped : tree.Shaped h) (rekeyed : Rekeyed id pk tree tree') : tree'.Shaped h := by
  obtain ⟨idx, nodes, encrypter, -, length, rfl⟩ := rekeyed
  exact { shaped with
    leaves := List.length_set.trans shaped.leaves
    inner := length.trans shaped.inner }

end BeeKem

end KeyhiveEval.Beekem
