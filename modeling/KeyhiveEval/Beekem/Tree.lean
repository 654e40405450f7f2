/-
**`tree.rs`: the BeeKEM tree.**

A method on `&self` is a function of the tree, a method on `&mut self` returns the tree it leaves.
Where the source can return an error after it has changed something (`encryptPath` and the key map
of `decryptTreeSecret`) the method runs in `EStateM`, which keeps the changes.

* Changes of the membership: `pushLeaf`, `removeId` and, after an epoch of concurrent operations,
  `sortLeavesAndBlankPathsForConcurrentMembershipChanges`.
* Changes of the keys: `encryptPath` writes a new key on every node from a leaf to the root and
  `applyPath` takes over such a `PathChange`.
* `decryptTreeSecret` climbs from a leaf to the root.
-/

import KeyhiveEval.Beekem.Keys

namespace KeyhiveEval.Beekem

open Std

structure LeafNode where
  id : MemberId
  pk : NodeKey
deriving DecidableEq

/-- The new keys from a leaf to the root, and the keys that they replace. -/
structure PathChange where
  leafId : MemberId
  leafIdx : Nat
  leafPk : NodeKey
  /-- The number of an inner node and its new content. -/
  path : List (Nat × InnerNode)
  removedKeys : List ShareKey
deriving DecidableEq

/-- A key used to derive application secrets. -/
structure PcsKey where
  secret : ShareSecretKey
deriving DecidableEq

structure BeeKem where
  docId : TreeId
  /-- The next leaf available for a new member. -/
  nextLeafIdx : Nat
  leaves : List (Option LeafNode)
  innerNodes : List (Option InnerNode)
  treeSize : TreeSize
  idToLeafIdx : ExtTreeMap MemberId Nat
  /-- The leaf that last encrypted its path, or `none` if there is no root key. -/
  currentSecretEncrypterLeafIdx : Option Nat
deriving DecidableEq

/-- The secret keys that a generator of random numbers yields. -/
abbrev Rng := Stream' ShareSecretKey

/-- A value or a fault, in a monad with a state. -/
def liftRes {σ α : Type} (value : Res α) : EStateM Fault σ α := fun state =>
  match value with
  | .ok a => .ok a state
  | .error fault => .error fault state

namespace BeeKem

/-! ### Reading the tree -/

def containsId (tree : BeeKem) (id : MemberId) : Bool := tree.idToLeafIdx.contains id

def memberCount (tree : BeeKem) : Nat := tree.idToLeafIdx.size

def leaf (tree : BeeKem) (idx : Nat) : Res (Option LeafNode) :=
  match tree.leaves[idx]? with
  | some node => .ok node
  | none => .error (.panic "Leaf index should be in bounds")

def innerNode (tree : BeeKem) (idx : Nat) : Res (Option InnerNode) :=
  match tree.innerNodes[idx]? with
  | some node => .ok node
  | none => .error (.panic "Inner node index should be in bounds")

def leafIndexForId (tree : BeeKem) (id : MemberId) : Res Nat :=
  match tree.idToLeafIdx[id]? with
  | some idx => .ok idx
  | none => .error (.err .identifierNotFound)

def nodeKeyForIndex (tree : BeeKem) : TreeNodeIndex → Res NodeKey
  | .leaf idx => do
    match ← tree.leaf idx with
    | some node => .ok node.pk
    | none => .error (.err .shareKeyNotFound)
  | .inner idx => do
    match ← tree.innerNode idx with
    | some node => node.nodeKey
    | none => .error (.err .shareKeyNotFound)

def nodeKeyForId (tree : BeeKem) (id : MemberId) : Res NodeKey := do
  let idx ← tree.leafIndexForId id
  tree.nodeKeyForIndex (.leaf idx)

def isRoot (tree : BeeKem) (node : TreeNodeIndex) : Bool := node == root tree.treeSize

/-- Whether a node is passed over when looking for the highest usable nodes of a subtree. -/
def shouldSkipForResolution (tree : BeeKem) : TreeNodeIndex → Res Bool
  | .leaf idx => do
    let node ← tree.leaf idx
    return node.isNone
  | .inner idx => do
    match ← tree.innerNode idx with
    | none => return true
    | some node => return node.hasConflict

def hasRootKey (tree : BeeKem) : Res Bool :=
  match root tree.treeSize with
  | .leaf _ => .error (.panic "BeeKEM should always have a root at an inner node.")
  | .inner idx => do
    match ← tree.innerNode idx with
    | some node => return !node.hasConflict
    | none => return false

/-- The highest nodes below `idx` that are neither blank nor in conflict. -/
def appendResolution (tree : BeeKem) :
    Nat → TreeNodeIndex → List TreeNodeIndex → Res (List TreeNodeIndex)
  | 0, _, _ => .error .diverge
  | fuel + 1, idx, acc => do
    if ← tree.shouldSkipForResolution idx then
      match idx with
      | .leaf _ => return acc
      | .inner i =>
        let acc ← appendResolution tree fuel (left i) acc
        appendResolution tree fuel (right i) acc
    else return acc ++ [idx]

/-! ### Writing single nodes -/

def insertLeafAt (tree : BeeKem) (idx : Nat) (id : MemberId) (pk : NodeKey) : Res BeeKem :=
  if idx < tree.leaves.length then
    .ok { tree with leaves := tree.leaves.set idx (some ⟨id, pk⟩) }
  else .error (.panic "index out of bounds")

def insertInnerNodeAt (tree : BeeKem) (idx : Nat) (store : SecretStore) : Res BeeKem :=
  if idx < tree.innerNodes.length then
    .ok { tree with innerNodes := tree.innerNodes.set idx (some store) }
  else .error (.panic "index out of bounds")

def blankLeaf (tree : BeeKem) (idx : Nat) : Res BeeKem :=
  if idx < tree.leaves.length then
    .ok { tree with leaves := tree.leaves.set idx none }
  else .error (.panic "index out of bounds")

def blankInnerNode (tree : BeeKem) (idx : Nat) : Res BeeKem :=
  if idx < tree.innerNodes.length then
    .ok { tree with innerNodes := tree.innerNodes.set idx none }
  else .error (.panic "index out of bounds")

/-! ### Blanking paths -/

/-- The loop of `blankPath`. It has left the tree, and so has panicked, long before the fuel is
used up. -/
def blankPathLoop : Nat → BeeKem → Nat → Res BeeKem
  | 0, _, _ => .error .diverge
  | fuel + 1, tree, idx => do
    let tree' ← tree.blankInnerNode idx
    if tree.isRoot (.inner idx) then return { tree' with currentSecretEncrypterLeafIdx := none }
    else blankPathLoop fuel tree' (parent (.inner idx))

/-- Blank the inner nodes from `idx` to the root. -/
def blankPath (tree : BeeKem) (idx : Nat) : Res BeeKem := blankPathLoop walkFuel tree idx

def blankLeafAndPath (tree : BeeKem) (idx : Nat) : Res BeeKem := do
  let tree ← tree.blankLeaf idx
  tree.blankPath (parent (.leaf idx))

/-! ### Membership -/

/-- Make room for as many leaves and inner nodes as the size of the tree says. -/
def growTreeToSize (tree : BeeKem) : BeeKem :=
  { tree with
    leaves := tree.leaves.takeD tree.treeSize.leafCount none
    innerNodes := tree.innerNodes.takeD tree.treeSize.innerNodeCount none }

/-- Double the tree if it has no room for leaf `newCount`. -/
def maybeGrowTree (tree : BeeKem) (newCount : Nat) : Res BeeKem := do
  let wanted ← TreeSize.fromLeafCount newCount
  if wanted.nodes ≤ tree.treeSize.nodes then return tree
  else return ({ tree with treeSize := tree.treeSize.inc }).growTreeToSize

/-- Add a leaf on the right and blank its path. -/
def pushLeaf (tree : BeeKem) (id : MemberId) (pk : NodeKey) : Res (Nat × BeeKem) := do
  let tree ← tree.maybeGrowTree tree.nextLeafIdx
  let lIdx := tree.nextLeafIdx
  let tree ← insertLeafAt { tree with nextLeafIdx := lIdx + 1 } lIdx id pk
  let tree ← blankPath { tree with idToLeafIdx := tree.idToLeafIdx.insert id lIdx }
    (parent (.leaf lIdx))
  return (lIdx, tree)

def new (docId : TreeId) (initialMemberId : MemberId) (initialMemberPk : ShareKey) :
    Res BeeKem := do
  let treeSize ← TreeSize.fromLeafCount 1
  let tree : BeeKem :=
    { docId
      nextLeafIdx := 0
      leaves := []
      innerNodes := []
      treeSize
      idToLeafIdx := ∅
      currentSecretEncrypterLeafIdx := none }
  let (_, tree) ← tree.growTreeToSize.pushLeaf initialMemberId (.shareKey initialMemberPk)
  return tree

def keysAt (tree : BeeKem) (idx : Nat) : Res (List ShareKey) := do
  match ← tree.innerNode idx with
  | some store => do
    let key ← store.nodeKey
    return key.keys
  | none => return []

def keysOnPath (tree : BeeKem) : List Nat → Res (List ShareKey)
  | [] => return []
  | idx :: rest => do
    let here ← tree.keysAt idx
    let above ← tree.keysOnPath rest
    return here ++ above

/-- Collect the blank leaves at the right end. With no leaf left the source underflows and
panics. -/
def collectTombstones : Nat → BeeKem → Res BeeKem
  | 0, _ => .error (.panic "Leaf index should be in bounds")
  | idx + 1, tree => do
    match ← tree.leaf idx with
    | some _ => return tree
    | none =>
      let tree ← tree.blankPath (parent (.leaf idx))
      collectTombstones idx { tree with nextLeafIdx := idx }

def removeId (tree : BeeKem) (id : MemberId) : Res ((Nat × List ShareKey) × BeeKem) :=
  if tree.memberCount = 1 then .error (.err .removeLastMember)
  else do
    let lIdx ← tree.leafIndexForId id
    let removedKeys ← tree.keysOnPath (← directPath (.leaf lIdx) tree.treeSize)
    let tree ← tree.blankLeafAndPath lIdx
    let tree := { tree with idToLeafIdx := tree.idToLeafIdx.erase id }
    let tree ← collectTombstones tree.nextLeafIdx tree
    return ((lIdx, removedKeys), tree)

/-- Blank the leaf that each remove of an epoch has recorded, and its path. -/
def blankRemoved : List (MemberId × Nat) → BeeKem → Res BeeKem
  | [], tree => return tree
  | (_, idx) :: rest, tree => do
    let tree ← tree.blankLeafAndPath idx
    blankRemoved rest tree

/-- Take leaves from the right end until all the added members are among them. -/
def popAdded : Nat → BeeKem → ExtTreeSet MemberId → List LeafNode → Res (BeeKem × List LeafNode)
  | 0, tree, _, acc => return (tree, acc)
  | idx + 1, tree, addedIds, acc =>
    if addedIds.isEmpty then return (tree, acc)
    else do
      let found ← tree.leaf idx
      let (addedIds, acc) := match found with
        | some nextLeaf => (addedIds.erase nextLeaf.id, acc ++ [nextLeaf])
        | none => (addedIds, acc)
      let tree ← tree.blankLeafAndPath idx
      popAdded idx { tree with nextLeafIdx := idx } addedIds acc

def pushLeaves : List LeafNode → BeeKem → Res BeeKem
  | [], tree => return tree
  | node :: rest, tree => do
    let (_, tree) ← tree.pushLeaf node.id node.pk
    pushLeaves rest tree

def sortLeaves (nodes : List LeafNode) : List LeafNode :=
  nodes.insertionSort fun first second => (compare first.id second.id).isLE

/-- After an epoch of concurrent operations with a change of the membership, blank the removed
paths and sort the added leaves. -/
def sortLeavesAndBlankPathsForConcurrentMembershipChanges (tree : BeeKem)
    (addedIds : ExtTreeSet MemberId) (removedIds : List (MemberId × Nat)) : Res BeeKem := do
  let addedIds := removedIds.foldl (fun ids removed => ids.erase removed.1) addedIds
  let tree ← blankRemoved removedIds tree
  let (tree, leavesToSort) ← popAdded tree.nextLeafIdx tree addedIds []
  pushLeaves (sortLeaves leavesToSort) tree

/-! ### Encrypting a path -/

section Encrypt

variable (𝒞 : Crypto)

/-- Encrypt a secret for each of the given nodes. The first encryption is stored under the
encrypter's own index too. -/
def encryptForResolution (tree : BeeKem) (childIdx : TreeNodeIndex)
    (childSk newParentSk : ShareSecretKey) : List TreeNodeIndex → Bool →
      ExtTreeMap TreeNodeIndex EncryptedSecret → Res (ExtTreeMap TreeNodeIndex EncryptedSecret)
  | [], _, secretMap => return secretMap
  | idx :: rest, usedPairedSibling, secretMap => do
    match ← tree.nodeKeyForIndex idx with
    | .conflictKeys _ =>
      .error (.panic "Sibling resolution nodes should have exactly one ShareKey")
    | .shareKey nextPk =>
      let encryptedSk ← encryptSecret 𝒞 tree.docId newParentSk childSk nextPk
      let secretMap :=
        if usedPairedSibling then secretMap else secretMap.insert childIdx encryptedSk
      encryptForResolution tree childIdx childSk newParentSk rest true
        (secretMap.insert idx encryptedSk)

/-- The store of a parent whose secret is encrypted for the resolution of the child's sibling, or
under a key pair made for the purpose when that is empty. -/
def encryptNewSecretStoreForParent (tree : BeeKem) (childIdx : TreeNodeIndex) (childPk : ShareKey)
    (childSk : ShareSecretKey) (newParentPk : ShareKey) (newParentSk : ShareSecretKey)
    (csprng : Rng) : Res (SecretStore × Rng) := do
  let siblingResolution ← tree.appendResolution walkFuel (sibling childIdx) []
  if siblingResolution.isEmpty then
    let pairedPk := csprng.head.shareKey 𝒞
    let encryptedSk ← encryptSecret 𝒞 tree.docId newParentSk childSk pairedPk
    return (.new newParentPk childPk ((∅ : ExtTreeMap _ _).insert childIdx encryptedSk),
      csprng.tail)
  else
    let secretMap ← tree.encryptForResolution 𝒞 childIdx childSk newParentSk siblingResolution
      false ∅
    return (.new newParentPk childPk secretMap, csprng)

def encryptPathLoop : Nat → TreeNodeIndex → ShareKey → ShareSecretKey → PathChange → Rng →
    EStateM Fault BeeKem (ShareSecretKey × PathChange)
  | 0, _, _, _, _, _ => throw .diverge
  | fuel + 1, childIdx, childPk, childSk, newPath, csprng => do
    let tree ← get
    if tree.isRoot childIdx then return (childSk, newPath)
    else
      let parentIdx := parent childIdx
      let removedHere ← liftRes (tree.keysAt parentIdx)
      let newParentSk := childSk.ratchetForward 𝒞
      let newParentPk := newParentSk.shareKey 𝒞
      let (store, csprng) ← liftRes (tree.encryptNewSecretStoreForParent 𝒞 childIdx childPk childSk
        newParentPk newParentSk csprng)
      set (← liftRes (tree.insertInnerNodeAt parentIdx store))
      encryptPathLoop fuel (.inner parentIdx) newParentPk newParentSk
        { newPath with
          path := newPath.path ++ [(parentIdx, store)]
          removedKeys := newPath.removedKeys ++ removedHere } csprng

/-- Write a new key on the leaf of a member and new keys from there to the root. -/
def encryptPath (id : MemberId) (pk : ShareKey) (sks : ShareKeyMap) (csprng : Rng) :
    EStateM Fault BeeKem (PcsKey × PathChange) := do
  let tree ← get
  let leafIdx ← liftRes (tree.leafIndexForId id)
  let newPath : PathChange :=
    { leafId := id
      leafIdx
      leafPk := .shareKey pk
      path := []
      removedKeys := (← liftRes (tree.nodeKeyForId id)).keys }
  set (← liftRes (tree.insertLeafAt leafIdx id (.shareKey pk)))
  match sks[pk]? with
  | none => throw (.err .secretKeyNotFound)
  | some childSk =>
    let (rootSk, newPath) ← encryptPathLoop 𝒞 walkFuel (.leaf leafIdx) pk childSk newPath csprng
    modify fun tree => { tree with currentSecretEncrypterLeafIdx := some leafIdx }
    return (⟨rootSk⟩, newPath)

end Encrypt

/-! ### Applying a path -/

/-- Whether a path still fits the tree. The length of the path that the sender's index has here is
computed first, whatever that index is. -/
def isValidPath (tree : BeeKem) (newPath : PathChange) : Res Bool := do
  let leafIdx ← match tree.idToLeafIdx[newPath.leafId]? with
    | some idx => .ok idx
    | none => .error (.panic "Id should be present")
  let path ← directPath (.leaf newPath.leafIdx) tree.treeSize
  return newPath.path.length == path.length && leafIdx == newPath.leafIdx

/-- Merge the inner nodes of a path into the tree. -/
def mergePath (removedKeys : List ShareKey) : List (Nat × InnerNode) → BeeKem → Res BeeKem
  | [], tree => return tree
  | (idx, node) :: rest, tree => do
    match tree.innerNodes[idx]? with
    | none => .error (.panic "Node should not be blank")
    | some none => do
      let tree ← tree.insertInnerNodeAt idx node
      mergePath removedKeys rest tree
    | some (some currentNode) => do
      let tree ← tree.insertInnerNodeAt idx (currentNode.merge node removedKeys)
      mergePath removedKeys rest tree

/-- Take over a change of a path. -/
def applyPath (tree : BeeKem) (newPath : PathChange) : Res BeeKem :=
  match tree.idToLeafIdx[newPath.leafId]? with
  -- A concurrent remove may have taken the member out.
  | none => return tree
  | some leafIdx => do
    let valid ← tree.isValidPath newPath
    match ← tree.leaf leafIdx with
    | none =>
      .error (.panic (if valid then "called `Option::unwrap()` on a `None` value"
        else "Leaf for present ID should not be None"))
    | some oldLeaf =>
      let newNodeKey := oldLeaf.pk.merge newPath.leafPk newPath.removedKeys
      let tree ← tree.insertLeafAt leafIdx newPath.leafId newNodeKey
      if valid then
        let tree ← mergePath newPath.removedKeys newPath.path tree
        if ← tree.hasRootKey then
          return { tree with currentSecretEncrypterLeafIdx := some leafIdx }
        else return { tree with currentSecretEncrypterLeafIdx := none }
      else tree.blankPath (parent (.leaf leafIdx))

/-! ### Decrypting the root -/

section Decrypt

variable (𝒞 : Crypto)

/-- The secret key of a parent, which is added to the known secret keys. -/
def maybeDecryptParentKey (tree : BeeKem) (childIdx : TreeNodeIndex) (childNodeKey : NodeKey)
    (seenIdxs : List TreeNodeIndex) : EStateM Fault ShareKeyMap (Option ShareSecretKey) := do
  match ← liftRes (tree.innerNode (parent childIdx)) with
  | none => return none
  | some node =>
    match ← liftRes node.nodeKey with
    | .conflictKeys _ => return none
    | .shareKey parentPk =>
      let childSks ← get
      match childSks[parentPk]? with
      | some secret => return some secret
      | none =>
        let secret ← liftRes (node.decryptSecret 𝒞 childNodeKey childSks seenIdxs)
        set (childSks.insert parentPk secret)
        return some secret

/-- Climb to the last node below a usable parent. -/
def skipBlank (tree : BeeKem) : Nat → TreeNodeIndex → Res TreeNodeIndex
  | 0, _ => .error .diverge
  | fuel + 1, childIdx => do
    let parentIdx : TreeNodeIndex := .inner (parent childIdx)
    if ← tree.shouldSkipForResolution parentIdx then skipBlank tree fuel parentIdx
    else return childIdx

def decryptTreeLoop (tree : BeeKem) (lcaWithEncrypter : Nat) :
    Nat → TreeNodeIndex → NodeKey → List TreeNodeIndex → Option ShareSecretKey →
      EStateM Fault ShareKeyMap ShareSecretKey
  | 0, _, _, _, _ => throw .diverge
  | fuel + 1, childIdx, childNodeKey, seenIdxs, last => do
    if tree.isRoot childIdx then
      match last with
      | some secret => return secret
      | none => throw (.err .noRootKey)
    else
      let childIdx ← liftRes (tree.skipBlank walkFuel childIdx)
      let parentIdx : TreeNodeIndex := .inner (parent childIdx)
      match ← tree.maybeDecryptParentKey 𝒞 childIdx childNodeKey seenIdxs with
      | none =>
        throw (.panic "Non-blank, non-conflict parent should have a secret we can decrypt")
      | some secret =>
        -- The rest of the way the encrypter has only ratcheted this secret forward.
        if parentIdx = .inner lcaWithEncrypter then
          let path ← liftRes (directPath parentIdx tree.treeSize)
          return secret.ratchetNForward 𝒞 path.length
        else
          let parentNodeKey ← liftRes (tree.nodeKeyForIndex parentIdx)
          decryptTreeLoop tree lcaWithEncrypter fuel parentIdx parentNodeKey
            (seenIdxs ++ [parentIdx]) (some secret)

def decryptTreeSecret (tree : BeeKem) (ownerId : MemberId) :
    EStateM Fault ShareKeyMap ShareSecretKey := do
  let leafIdx ← liftRes (tree.leafIndexForId ownerId)
  if ← liftRes tree.hasRootKey then
    match ← liftRes (tree.leaf leafIdx) with
    | none => throw (.panic "Leaf should not be blank")
    | some leaf =>
      if tree.currentSecretEncrypterLeafIdx = some leafIdx then
        match leaf.pk with
        | .conflictKeys _ => throw (.err .shareKeyNotFound)
        | .shareKey pk =>
          let ownerSks ← get
          match ownerSks[pk]? with
          | none => throw (.err .shareKeyNotFound)
          | some secret =>
            let path ← liftRes (directPath (.leaf leafIdx) tree.treeSize)
            return secret.ratchetNForward 𝒞 path.length
      else
        match tree.currentSecretEncrypterLeafIdx with
        | none => throw (.panic "A tree with a root key should have a current encrypter")
        | some encrypter =>
          tree.decryptTreeLoop 𝒞 (lowestCommonAncestor leafIdx encrypter) walkFuel (.leaf leafIdx)
            leaf.pk [.leaf leafIdx] none
  else throw (.err .noRootKey)

end Decrypt

end BeeKem

end KeyhiveEval.Beekem
