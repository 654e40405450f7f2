/-
**`secret_tree.rs`: the secrets of all senders, derived from one.**

The encryption secret of an epoch stands at the root of a tree. The secrets of a leaf's two ratchets are derived down
the path to it when they are first asked for, and each secret on the way is deleted.

* `SecretTree.deriveDown`, `initializeSenderRatchets`, `secretForEncryption`, `secretForDecryption` — the methods.
  One that fails keeps what it has changed.
* `SecretTree.stored` — the secrets by level; with it the tree is a frontier of lazily derived secrets, and
  `initialised` are the leaves that are spent (`Inv.frontier`).
* `run_secretTree` — whatever was asked for before: the two secrets of a leaf are those derived from the root, deriving
  them never ends in the error that must not happen, and of a leaf that has its ratchets no secret is left.
-/

import KeyhiveEval.Lib.KeyFrontier
import KeyhiveEval.Mls.TreeMath
import KeyhiveEval.Mls.SenderRatchet

namespace KeyhiveEval.Mls

open Stateful KeyFrontier PerfectTree
open Beekem (TreeNodeIndex TreeSize node innerIdx)

variable {Secret : Type}

inductive SecretType
  | handshakeSecret
  | applicationSecret
deriving DecidableEq

/-- The node secrets and the ratchets of the leaves. -/
structure SecretTree (Secret : Type) where
  ownIndex : Nat
  leafNodes : List (Option Secret)
  parentNodes : List (Option Secret)
  handshakeSenderRatchets : List (Option (SenderRatchet Secret))
  applicationSenderRatchets : List (Option (SenderRatchet Secret))
  size : TreeSize

abbrev SecretTreeM (Secret : Type) := EStateM SecretTreeError (SecretTree Secret)

namespace SecretTree

def ratchets (tree : SecretTree Secret) : SecretType → List (Option (SenderRatchet Secret))
  | .handshakeSecret => tree.handshakeSenderRatchets
  | .applicationSecret => tree.applicationSenderRatchets

def setRatchets (tree : SecretTree Secret) (ratchets : List (Option (SenderRatchet Secret))) :
    SecretType → SecretTree Secret
  | .handshakeSecret => { tree with handshakeSenderRatchets := ratchets }
  | .applicationSecret => { tree with applicationSenderRatchets := ratchets }

def nodeAt (tree : SecretTree Secret) : TreeNodeIndex → Option (Option Secret)
  | .leaf index => tree.leafNodes[index]?
  | .inner index => tree.parentNodes[index]?

def getNode (index : TreeNodeIndex) : SecretTreeM Secret (Option Secret) := do
  let tree ← get
  match tree.nodeAt index with
  | some secret => return secret
  | none => throw .indexOutOfBounds

/-- The tree with another secret at a node. -/
def withNode (tree : SecretTree Secret) (index : TreeNodeIndex) (secret : Option Secret) : SecretTree Secret :=
  match index with
  | .leaf index => { tree with leafNodes := tree.leafNodes.set index secret }
  | .inner index => { tree with parentNodes := tree.parentNodes.set index secret }

def setNode (index : TreeNodeIndex) (secret : Option Secret) : SecretTreeM Secret PUnit := do
  let tree ← get
  match tree.nodeAt index with
  | some _ => set (tree.withNode index secret)
  | none => throw .indexOutOfBounds

/-- The result of setting the root is ignored. -/
def new (encryptionSecret : Secret) (size : TreeSize) (ownIndex : Nat) : SecretTree Secret :=
  let tree : SecretTree Secret := {
    ownIndex
    leafNodes := List.replicate size.leafCount none
    parentNodes := List.replicate size.leafCount none
    handshakeSenderRatchets := List.replicate size.leafCount none
    applicationSenderRatchets := List.replicate size.leafCount none
    size }
  final (setNode (Beekem.root size) (some encryptionSecret) tree)

def ratchetOpt (index : Nat) (secretType : SecretType) :
    SecretTreeM Secret (Option (SenderRatchet Secret)) := do
  let tree ← get
  match (tree.ratchets secretType)[index]? with
  | some ratchet => return ratchet
  | none => throw .indexOutOfBounds

def ratchetMut (index : Nat) (secretType : SecretType) : SecretTreeM Secret (SenderRatchet Secret) := do
  let tree ← get
  match (tree.ratchets secretType)[index]? with
  | some (some ratchet) => return ratchet
  | _ => throw .indexOutOfBounds

def writeRatchet (index : Nat) (secretType : SecretType) (ratchet : SenderRatchet Secret) :
    SecretTreeM Secret PUnit := do
  let tree ← get
  if index < (tree.ratchets secretType).length then
    set (tree.setRatchets ((tree.ratchets secretType).set index (some ratchet)) secretType)
  else throw .indexOutOfBounds

/-- `b"left"`. -/
def leftContext : List UInt8 := [0x6c, 0x65, 0x66, 0x74]

/-- `b"right"`. -/
def rightContext : List UInt8 := [0x72, 0x69, 0x67, 0x68, 0x74]

def deriveChildSecrets (suite : Ciphersuite) (provider : Provider Secret) (parentSecret : Secret) :
    SecretTreeM Secret (Secret × Secret) := do
  let leftChild ← expand provider parentSecret "tree" leftContext suite.hashLength
  let rightChild ← expand provider parentSecret "tree" rightContext suite.hashLength
  return (leftChild, rightChild)

/-- Derive the secrets of the children of a node, and delete the node's. -/
def deriveDown (suite : Ciphersuite) (provider : Provider Secret) (indexInTree : Nat) :
    SecretTreeM Secret PUnit := do
  match ← getNode (.inner indexInTree) with
  | none => throw .libraryError
  | some nodeSecret =>
    let (leftSecret, rightSecret) ← deriveChildSecrets suite provider nodeSecret
    setNode (Beekem.left indexInTree) (some leftSecret)
    setNode (Beekem.right indexInTree) (some rightSecret)
    setNode (.inner indexInTree) none

/-- The nodes of a path up to the first one that has a secret. -/
def emptyNodes : List Nat → SecretTreeM Secret (List Nat)
  | [] => return []
  | parentNode :: rest => do
    if (← getNode (.inner parentNode)).isSome then return [parentNode]
    let further ← emptyNodes rest
    return parentNode :: further

/-- Derive the secrets down to a leaf, if it has none. -/
def deriveToLeaf (suite : Ciphersuite) (provider : Provider Secret) (index : Nat) :
    SecretTreeM Secret PUnit := do
  if (← getNode (.leaf index)).isNone then
    match directPath index (← get).size with
    | none => throw .diverge
    | some path =>
      let nodes ← emptyNodes path
      nodes.reverse.forM (deriveDown suite provider)

/-- The ratchet of a leaf in its first generation. The own ratchets are for encryption, those of others for
decryption. -/
def firstRatchet (ownIndex index : Nat) (secret : Secret) : SenderRatchet Secret :=
  if index = ownIndex then .encryptionRatchet (.initialRatchetSecret secret)
  else .decryptionRatchet (.new secret)

/-- Make the ratchets of a leaf from its secret, and delete the secret. -/
def startRatchets (suite : Ciphersuite) (provider : Provider Secret) (index : Nat) : SecretTreeM Secret PUnit := do
  match ← getNode (.leaf index) with
  | none => throw .libraryError
  | some nodeSecret =>
    let handshakeRatchetSecret ← expand provider nodeSecret "handshake" [] suite.hashLength
    let applicationRatchetSecret ← expand provider nodeSecret "application" [] suite.hashLength
    let ownIndex := (← get).ownIndex
    writeRatchet index .handshakeSecret (firstRatchet ownIndex index handshakeRatchetSecret)
    writeRatchet index .applicationSecret (firstRatchet ownIndex index applicationRatchetSecret)
    setNode (.leaf index) none

def initializeSenderRatchets (suite : Ciphersuite) (provider : Provider Secret) (index : Nat) :
    SecretTreeM Secret PUnit := do
  if index ≥ (← get).size.leafCount then throw .indexOutOfBounds
  if (← ratchetOpt index .handshakeSecret).isSome && (← ratchetOpt index .applicationSecret).isSome then return
  deriveToLeaf suite provider index
  startRatchets suite provider index

/-- Call a method of a ratchet, and keep what it has changed. -/
def onRatchet {σ α : Type} (index : Nat) (secretType : SecretType) (pack : σ → SenderRatchet Secret)
    (method : EStateM SecretTreeError σ α) (ratchet : σ) : SecretTreeM Secret α :=
  match method ratchet with
  | .ok value ratchet => do
    writeRatchet index secretType (pack ratchet)
    return value
  | .error error ratchet => do
    writeRatchet index secretType (pack ratchet)
    throw error

def secretForDecryption (suite : Ciphersuite) (provider : Provider Secret) (index : Nat) (secretType : SecretType)
    (generation : Nat) (configuration : SenderRatchetConfiguration) :
    SecretTreeM Secret (RatchetKeyMaterial Secret) := do
  if index ≥ (← get).size.leafCount then throw .indexOutOfBounds
  if (← ratchetOpt index secretType).isNone then initializeSenderRatchets suite provider index
  match ← ratchetMut index secretType with
  | .encryptionRatchet _ => throw .ratchetTypeError
  | .decryptionRatchet decRatchet =>
    onRatchet index secretType .decryptionRatchet
      (DecryptionRatchet.secretForDecryption suite provider generation configuration) decRatchet

def secretForEncryption (suite : Ciphersuite) (provider : Provider Secret) (index : Nat) (secretType : SecretType) :
    SecretTreeM Secret (Nat × RatchetKeyMaterial Secret) := do
  if (← ratchetOpt index secretType).isNone then initializeSenderRatchets suite provider index
  match ← ratchetMut index secretType with
  | .decryptionRatchet _ => throw .ratchetTypeError
  | .encryptionRatchet encRatchet =>
    onRatchet index secretType .encryptionRatchet (RatchetSecret.ratchetForward suite provider) encRatchet

/-! ### Secrets by level -/

def stored (tree : SecretTree Secret) : Stored Secret := fun k p => (tree.nodeAt (node k p)).getD none

/-- The leaves that have their ratchets. -/
def Initialised (tree : SecretTree Secret) (leaf : Nat) : Prop :=
  ∃ ratchet, (tree.ratchets .handshakeSecret)[leaf]? = some (some ratchet)

/-- The tree holds all nodes of its height. -/
structure Full (height : Nat) (tree : SecretTree Secret) : Prop where
  leaves : tree.leafNodes.length = 2 ^ height
  parents : tree.parentNodes.length = 2 ^ height

section Derivation

variable (suite : Ciphersuite) (kdf : Kdf Secret) (encryptionSecret : Secret) (height ownIndex : Nat)

def leftOf (secret : Secret) : Secret := kdf secret "tree" leftContext suite.hashLength

def rightOf (secret : Secret) : Secret := kdf secret "tree" rightContext suite.hashLength

def leafSecret (leaf : Nat) : Secret :=
  derived (leftOf suite kdf) (rightOf suite kdf) encryptionSecret height leaf

/-- The secret of a leaf's first ratchet of a type. -/
def ratchetSecret (secretType : SecretType) (leaf : Nat) : Secret :=
  match secretType with
  | .handshakeSecret => kdf (leafSecret suite kdf encryptionSecret height leaf) "handshake" [] suite.hashLength
  | .applicationSecret => kdf (leafSecret suite kdf encryptionSecret height leaf) "application" [] suite.hashLength

/-- A tree of a given height: the stored secrets are a frontier, and each ratchet stems from the secret derived down
from the root. -/
structure Inv (tree : SecretTree Secret) : Prop where
  size : tree.size = .ofHeight height
  own : tree.ownIndex = ownIndex
  full : Full height tree
  length : ∀ secretType, (tree.ratchets secretType).length = 2 ^ height
  frontier : Frontier (leftOf suite kdf) (rightOf suite kdf) encryptionSecret height tree.stored tree.Initialised
  both : ∀ secretType leaf, (∃ ratchet, (tree.ratchets secretType)[leaf]? = some (some ratchet)) ↔
    tree.Initialised leaf
  evolves : ∀ {secretType leaf ratchet}, (tree.ratchets secretType)[leaf]? = some (some ratchet) →
    SenderRatchet.Evolves kdf suite
      (firstRatchet ownIndex leaf (ratchetSecret suite kdf encryptionSecret height secretType leaf)) ratchet

end Derivation

section Nodes

variable {tree : SecretTree Secret} {height k p : Nat}

theorem Full.nodeAt (full : Full height tree) (inside : Beekem.Inside height k p) :
    tree.nodeAt (node k p) = some (tree.stored k p) := by
  suffices (tree.nodeAt (node k p)).isSome by
    obtain ⟨secret, found⟩ := Option.isSome_iff_exists.mp this
    rw [stored, found]
    rfl
  cases k with
  | zero =>
    rw [Beekem.node_zero, SecretTree.nodeAt]
    simpa [full.leaves] using inside.within
  | succ k =>
    rw [Beekem.node_succ, SecretTree.nodeAt]
    have := inside.innerIdx_lt
    simp only [List.getElem?_eq_getElem (show innerIdx (k + 1) p < tree.parentNodes.length by
      rw [full.parents]; omega), Option.isSome_some]

theorem nodeAt_withNode {index other : TreeNodeIndex} {secret : Option Secret}
    (there : (tree.nodeAt index).isSome) :
    (tree.withNode index secret).nodeAt other = if other = index then some secret else tree.nodeAt other := by
  cases index with
  | leaf i =>
    cases other with
    | leaf j =>
      simp only [withNode, nodeAt, List.getElem?_set, TreeNodeIndex.leaf.injEq] at there ⊢
      have : i < tree.leafNodes.length := by simpa using there
      grind
    | inner j => simp [withNode, nodeAt]
  | inner i =>
    cases other with
    | leaf j => simp [withNode, nodeAt]
    | inner j =>
      simp only [withNode, nodeAt, List.getElem?_set, TreeNodeIndex.inner.injEq] at there ⊢
      have : i < tree.parentNodes.length := by simpa using there
      grind

theorem Full.stored_withNode (full : Full height tree) (inside : Beekem.Inside height k p)
    (secret : Option Secret) : (tree.withNode (node k p) secret).stored = tree.stored.put k p secret := by
  funext j q
  rw [stored, nodeAt_withNode (by rw [full.nodeAt inside]; rfl)]
  by_cases same : j = k ∧ q = p
  · rw [same.1, same.2, if_pos rfl, Stored.put_self]
    rfl
  · rw [if_neg fun nodes => same (Beekem.node_injective nodes), Stored.put_of_ne same]
    rfl

theorem Full.withNode (full : Full height tree) (index : TreeNodeIndex) (secret : Option Secret) :
    Full height (tree.withNode index secret) := by
  cases index with
  | leaf i => exact ⟨by simpa [SecretTree.withNode] using full.leaves, full.parents⟩
  | inner i => exact ⟨full.leaves, by simpa [SecretTree.withNode] using full.parents⟩

end Nodes

/-! ### One derivation -/

section Rules

variable {tree : SecretTree Secret} {height k p : Nat} {fail : SecretTreeError → SecretTree Secret → Prop}

theorem after_getNode {post : Option Secret → SecretTree Secret → Prop} (full : Full height tree)
    (inside : Beekem.Inside height k p) :
    After (getNode (node k p) tree) post fail ↔ post (tree.stored k p) tree := by
  rw [getNode, after_bind, after_get, full.nodeAt inside]
  exact after_pure

theorem after_setNode {post : PUnit → SecretTree Secret → Prop} (full : Full height tree)
    (inside : Beekem.Inside height k p) (secret : Option Secret) :
    After (setNode (node k p) secret tree) post fail ↔ post ⟨⟩ (tree.withNode (node k p) secret) := by
  rw [setNode, after_bind, after_get, full.nodeAt inside]
  exact after_set

theorem after_expand {σ : Type} {state : σ} {provider : Provider Secret} {kdf : Kdf Secret}
    {post : Secret → σ → Prop} {fail : SecretTreeError → σ → Prop} (computes : provider.Computes kdf)
    {secret : Secret} {label : String} {context : List UInt8} {length : Nat}
    (done : post (kdf secret label context length) state)
    (failed : ∀ error, provider secret label context length = .error error → fail (.cryptoError error) state) :
    After (expand provider secret label context length state) post fail := by
  rw [expand]
  cases result : provider secret label context length with
  | ok value => exact computes _ _ _ _ _ result ▸ done
  | error error => exact failed error result

end Rules

/-- The parts of a tree other than its node secrets. -/
structure SameRatchets (tree tree' : SecretTree Secret) : Prop where
  own : tree'.ownIndex = tree.ownIndex
  size : tree'.size = tree.size
  handshake : tree'.handshakeSenderRatchets = tree.handshakeSenderRatchets
  application : tree'.applicationSenderRatchets = tree.applicationSenderRatchets

theorem SameRatchets.refl (tree : SecretTree Secret) : SameRatchets tree tree := ⟨rfl, rfl, rfl, rfl⟩

theorem SameRatchets.trans {tree tree' tree'' : SecretTree Secret} (first : SameRatchets tree tree')
    (second : SameRatchets tree' tree'') : SameRatchets tree tree'' :=
  ⟨second.own.trans first.own, second.size.trans first.size, second.handshake.trans first.handshake,
    second.application.trans first.application⟩

theorem sameRatchets_withNode (tree : SecretTree Secret) (index : TreeNodeIndex) (secret : Option Secret) :
    SameRatchets tree (tree.withNode index secret) := by
  cases index <;> exact ⟨rfl, rfl, rfl, rfl⟩

/-- The only error that deriving secrets can end in: that of the provider. -/
def FailedCrypto (provider : Provider Secret) (error : SecretTreeError) : Prop :=
  ∃ cause, error = .cryptoError cause ∧ ∃ secret label context length,
    provider secret label context length = .error cause

section Derive

variable {suite : Ciphersuite} {provider : Provider Secret} {kdf : Kdf Secret} {tree : SecretTree Secret}
  {height k p : Nat}

theorem after_deriveDown (computes : provider.Computes kdf) (low : height ≤ 30) (full : Full height tree)
    (inside : Beekem.Inside height (k + 1) p) {secret : Secret} (here : tree.stored (k + 1) p = some secret) :
    After (deriveDown suite provider (innerIdx (k + 1) p) tree)
      (fun _ tree' => Full height tree' ∧ SameRatchets tree tree' ∧
        tree'.stored = tree.stored.split (leftOf suite kdf) (rightOf suite kdf) k p secret)
      (fun error tree' => tree' = tree ∧ FailedCrypto provider error) := by
  have level := inside.level
  have leftInside : Beekem.Inside height k (2 * p) := inside.child (by omega)
  have rightInside : Beekem.Inside height k (2 * p + 1) := inside.child (by omega)
  rw [deriveDown, ← Beekem.node_succ, after_bind, after_getNode full inside, here, after_bind, deriveChildSecrets,
    after_bind]
  refine after_expand computes ?_ fun error fails => ⟨rfl, error, rfl, _, _, _, _, fails⟩
  rw [after_bind]
  refine after_expand computes ?_ fun error fails => ⟨rfl, error, rfl, _, _, _, _, fails⟩
  rw [after_pure, Beekem.left_node (by omega) (inside.pos_lt_u32 (by omega)),
    Beekem.right_node (by omega) (inside.pos_lt_u32 (by omega)), after_bind, after_setNode full leftInside, after_bind,
    after_setNode (full.withNode _ _) rightInside, after_setNode ((full.withNode _ _).withNode _ _) inside]
  refine ⟨((full.withNode _ _).withNode _ _).withNode _ _, ?_, ?_⟩
  · exact ((sameRatchets_withNode _ _ _).trans (sameRatchets_withNode _ _ _)).trans (sameRatchets_withNode _ _ _)
  · rw [((full.withNode _ _).withNode _ _).stored_withNode inside, (full.withNode _ _).stored_withNode rightInside,
      full.stored_withNode leftInside]
    rfl

variable {leaf : Nat}

/-- The nodes that are collected reach up to the stored secret. -/
theorem after_emptyNodes {top : Nat} {post : List Nat → SecretTree Secret → Prop}
    {fail : SecretTreeError → SecretTree Secret → Prop} (full : Full height tree) (within : leaf < 2 ^ height)
    (above : k < top) (inTree : top ≤ height) (here : tree.stored top (leaf / 2 ^ top) ≠ none)
    (clear : ∀ j, k < j → j < top → tree.stored j (leaf / 2 ^ j) = none)
    (done : post (Beekem.above (top - k) k (leaf / 2 ^ k)) tree) :
    After (emptyNodes (Beekem.above (height - k) k (leaf / 2 ^ k)) tree) post fail := by
  induction distance : top - k generalizing k post with
  | zero => omega
  | succ n ih =>
    have up : leaf / 2 ^ k / 2 = leaf / 2 ^ (k + 1) := by rw [pow_succ, Nat.div_div_eq_div_mul]
    have inside : Beekem.Inside height (k + 1) (leaf / 2 ^ (k + 1)) := inside_path within (by omega)
    rw [show height - k = height - (k + 1) + 1 by omega, Beekem.above, up, emptyNodes, ← Beekem.node_succ, after_bind,
      after_getNode full inside]
    rw [distance, Beekem.above, up] at done
    by_cases last : top = k + 1
    · subst last
      rw [if_pos (Option.isSome_iff_ne_none.mpr here), after_pure]
      rwa [show n = 0 by omega, Beekem.above] at done
    · rw [if_neg (by simp [clear (k + 1) (by omega) (by omega)]), after_bind]
      refine ih (by omega) (fun j lower upper => clear j (by omega) upper) ?_ (by omega)
      rwa [after_pure, show top - (k + 1) = n by omega]

variable {encryptionSecret : Secret} {spent : Nat → Prop}

/-- Deriving down from a stored secret to a leaf below it. -/
theorem after_deriveAll {top : Nat}
    (computes : provider.Computes kdf) (low : height ≤ 30) (full : Full height tree)
    (frontier : Frontier (leftOf suite kdf) (rightOf suite kdf) encryptionSecret height tree.stored spent)
    (within : leaf < 2 ^ height) (inTree : top ≤ height) (here : tree.stored top (leaf / 2 ^ top) ≠ none) :
    After ((Beekem.above top 0 leaf).reverse.forM (deriveDown suite provider) tree)
      (fun _ tree' => (Full height tree' ∧ SameRatchets tree tree' ∧
        Frontier (leftOf suite kdf) (rightOf suite kdf) encryptionSecret height tree'.stored spent) ∧
        tree'.stored 0 leaf ≠ none)
      (fun error tree' => (Full height tree' ∧ SameRatchets tree tree' ∧
        Frontier (leftOf suite kdf) (rightOf suite kdf) encryptionSecret height tree'.stored spent) ∧
        FailedCrypto provider error) := by
  induction top generalizing tree with
  | zero =>
    rw [Beekem.above]
    exact ⟨⟨full, .refl tree, frontier⟩, by simpa using here⟩
  | succ top ih =>
    obtain ⟨secret, found⟩ := Option.ne_none_iff_exists'.mp here
    have inside : Beekem.Inside height (top + 1) (leaf / 2 ^ (top + 1)) := inside_path within inTree
    rw [Beekem.above_succ_last, List.reverse_append, Nat.zero_add]
    show After ((deriveDown suite provider _ >>= fun _ => (Beekem.above top 0 leaf).reverse.forM _) tree) _ _
    rw [after_bind]
    refine (after_deriveDown computes low full inside found).mono ?_ ?_
    · rintro _ tree' ⟨full', same, stored'⟩
      have frontier' := frontier.split inTree inside.within found
      rw [← stored'] at frontier'
      have lower : tree'.stored top (leaf / 2 ^ top) ≠ none := by
        rw [stored', Stored.split_below _ (by rw [pow_succ, Nat.div_div_eq_div_mul])]
        simp
      refine (ih full' frontier' (by omega) lower).mono ?_ ?_
      · rintro _ tree'' ⟨⟨full'', same', frontier''⟩, atLeaf⟩
        exact ⟨⟨full'', same.trans same', frontier''⟩, atLeaf⟩
      · rintro error tree'' ⟨⟨full'', same', frontier''⟩, failed⟩
        exact ⟨⟨full'', same.trans same', frontier''⟩, failed⟩
    · rintro error tree' ⟨rfl, failed⟩
      exact ⟨⟨full, .refl tree', frontier⟩, failed⟩

theorem after_deriveToLeaf
    (computes : provider.Computes kdf) (low : height ≤ 30) (size : tree.size = .ofHeight height)
    (full : Full height tree)
    (frontier : Frontier (leftOf suite kdf) (rightOf suite kdf) encryptionSecret height tree.stored spent)
    (within : leaf < 2 ^ height) (notSpent : ¬ spent leaf) :
    After (deriveToLeaf suite provider leaf tree)
      (fun _ tree' => (Full height tree' ∧ SameRatchets tree tree' ∧
        Frontier (leftOf suite kdf) (rightOf suite kdf) encryptionSecret height tree'.stored spent) ∧
        tree'.stored 0 leaf ≠ none)
      (fun error tree' => (Full height tree' ∧ SameRatchets tree tree' ∧
        Frontier (leftOf suite kdf) (rightOf suite kdf) encryptionSecret height tree'.stored spent) ∧
        FailedCrypto provider error) := by
  have inside : Beekem.Inside height 0 leaf := Beekem.inside_leaf.mpr within
  rw [deriveToLeaf, ← Beekem.node_zero, after_bind, after_getNode full inside]
  by_cases present : tree.stored 0 leaf = none
  · rw [if_pos (by simp [present]), after_bind, after_get, size, directPath_eq (by omega) within, after_bind]
    obtain ⟨top, inTree, here⟩ := frontier.covered within notSpent
    have above : 0 < top := by
      by_contra zero
      obtain rfl : top = 0 := by omega
      rw [pow_zero, Nat.div_one] at here
      exact here present
    have path : After (emptyNodes (Beekem.above height 0 leaf) tree)
        (fun nodes tree' => nodes = Beekem.above top 0 leaf ∧ tree' = tree) (fun _ _ => False) := by
      have collected : After (emptyNodes (Beekem.above (height - 0) 0 (leaf / 2 ^ 0)) tree)
          (fun nodes tree' => nodes = Beekem.above (top - 0) 0 (leaf / 2 ^ 0) ∧ tree' = tree) (fun _ _ => False) :=
        after_emptyNodes full within above inTree here
          (fun j _ lower => frontier.alone within inTree here (by omega) (by omega)) ⟨rfl, rfl⟩
      simpa using collected
    refine path.mono ?_ fun _ _ absurd => absurd.elim
    rintro nodes tree' ⟨rfl, rfl⟩
    exact after_deriveAll computes low full frontier within inTree here
  · rw [if_neg (by simpa using present)]
    exact ⟨⟨full, .refl tree, frontier⟩, present⟩

end Derive

/-! ### The ratchets of a leaf -/

section Initialise

variable {suite : Ciphersuite} {provider : Provider Secret} {kdf : Kdf Secret} {encryptionSecret : Secret}
  {height ownIndex : Nat} {tree tree' : SecretTree Secret}

theorem Inv.of_same (inv : Inv suite kdf encryptionSecret height ownIndex tree) (full : Full height tree')
    (same : SameRatchets tree tree')
    (frontier : Frontier (leftOf suite kdf) (rightOf suite kdf) encryptionSecret height tree'.stored
      tree.Initialised) : Inv suite kdf encryptionSecret height ownIndex tree' := by
  have ratchets : ∀ secretType, tree'.ratchets secretType = tree.ratchets secretType := by
    rintro (_ | _)
    · exact same.handshake
    · exact same.application
  have initialised : tree'.Initialised = tree.Initialised := by
    funext leaf
    rw [Initialised, Initialised, ratchets]
  exact {
    size := same.size.trans inv.size
    own := same.own.trans inv.own
    full := full
    length := fun secretType => by rw [ratchets, inv.length]
    frontier := initialised ▸ frontier
    both := fun secretType leaf => by rw [ratchets, initialised, inv.both]
    evolves := fun found => inv.evolves (by rwa [ratchets] at found) }

/-- The tree with the first ratchets of a leaf, and without its secret. -/
def initialise (tree : SecretTree Secret) (leaf : Nat) (handshake application : SenderRatchet Secret) :
    SecretTree Secret :=
  { tree with
    handshakeSenderRatchets := tree.handshakeSenderRatchets.set leaf (some handshake)
    applicationSenderRatchets := tree.applicationSenderRatchets.set leaf (some application)
    leafNodes := tree.leafNodes.set leaf none }

variable {leaf : Nat}

theorem Inv.initialise (inv : Inv suite kdf encryptionSecret height ownIndex tree)
    (within : leaf < 2 ^ height) (here : tree.stored 0 leaf ≠ none) :
    Inv suite kdf encryptionSecret height ownIndex (tree.initialise leaf
      (firstRatchet ownIndex leaf (ratchetSecret suite kdf encryptionSecret height .handshakeSecret leaf))
      (firstRatchet ownIndex leaf (ratchetSecret suite kdf encryptionSecret height .applicationSecret leaf))) := by
  set first := fun secretType =>
    firstRatchet ownIndex leaf (ratchetSecret suite kdf encryptionSecret height secretType leaf) with isFirst
  have ratchets : ∀ secretType, (tree.initialise leaf (first .handshakeSecret)
      (first .applicationSecret)).ratchets secretType
        = (tree.ratchets secretType).set leaf (some (first secretType)) := by
    rintro (_ | _) <;> rfl
  have found : ∀ secretType other ratchet, ((tree.initialise leaf (first .handshakeSecret)
      (first .applicationSecret)).ratchets secretType)[other]? = some (some ratchet) ↔
        (other = leaf ∧ ratchet = first secretType) ∨
        (other ≠ leaf ∧ (tree.ratchets secretType)[other]? = some (some ratchet)) := by
    intro secretType other ratchet
    have bound : leaf < (tree.ratchets secretType).length := by rw [inv.length]; exact within
    rw [ratchets, List.getElem?_set]
    by_cases same : leaf = other
    · subst same
      simp [bound, eq_comm]
    · simp [same, Ne.symm same]
  have has : ∀ secretType other, (∃ ratchet, ((tree.initialise leaf (first .handshakeSecret)
      (first .applicationSecret)).ratchets secretType)[other]? = some (some ratchet)) ↔
        tree.Initialised other ∨ other = leaf := by
    intro secretType other
    simp only [found, ← inv.both secretType other]
    by_cases same : other = leaf <;> simp [same]
  have initialised : (tree.initialise leaf (first .handshakeSecret) (first .applicationSecret)).Initialised
      = fun other => tree.Initialised other ∨ other = leaf :=
    funext fun other => propext (has .handshakeSecret other)
  have stored : (tree.initialise leaf (first .handshakeSecret) (first .applicationSecret)).stored
      = tree.stored.put 0 leaf none := by
    rw [← inv.full.stored_withNode (Beekem.inside_leaf.mpr within) none, Beekem.node_zero]
    rfl
  exact {
    size := inv.size
    own := inv.own
    full := ⟨by simpa [SecretTree.initialise] using inv.full.leaves, inv.full.parents⟩
    length := fun secretType => by rw [ratchets, List.length_set, inv.length]
    frontier := by
      rw [stored, initialised]
      exact inv.frontier.take within here
    both := fun secretType other => by rw [has, initialised]
    evolves := by
      intro secretType other ratchet there
      rcases (found _ _ _).mp there with ⟨rfl, rfl⟩ | ⟨-, before⟩
      · exact .refl
      · exact inv.evolves before }

variable {secretType : SecretType} {fail : SecretTreeError → SecretTree Secret → Prop}

theorem after_writeRatchet {ratchet : SenderRatchet Secret}
    {post : PUnit → SecretTree Secret → Prop}
    (within : leaf < (tree.ratchets secretType).length) :
    After (writeRatchet leaf secretType ratchet tree) post fail ↔
      post ⟨⟩ (tree.setRatchets ((tree.ratchets secretType).set leaf (some ratchet)) secretType) := by
  rw [writeRatchet, after_bind, after_get, if_pos within]
  exact after_set

theorem after_ratchetOpt
    {post : Option (SenderRatchet Secret) → SecretTree Secret → Prop} {ratchet : Option (SenderRatchet Secret)}
    (found : (tree.ratchets secretType)[leaf]? = some ratchet) :
    After (ratchetOpt leaf secretType tree) post fail ↔ post ratchet tree := by
  rw [ratchetOpt, after_bind, after_get, found]
  exact after_pure

theorem after_startRatchets (computes : provider.Computes kdf)
    (inv : Inv suite kdf encryptionSecret height ownIndex tree) (within : leaf < 2 ^ height)
    (here : tree.stored 0 leaf ≠ none) :
    After (startRatchets suite provider leaf tree)
      (fun _ tree' => Inv suite kdf encryptionSecret height ownIndex tree' ∧ ∀ secretType,
        (tree'.ratchets secretType)[leaf]? = some (some (firstRatchet ownIndex leaf
          (ratchetSecret suite kdf encryptionSecret height secretType leaf))))
      (fun error tree' => tree' = tree ∧ FailedCrypto provider error) := by
  obtain ⟨secret, found⟩ := Option.ne_none_iff_exists'.mp here
  have inside : Beekem.Inside height 0 leaf := Beekem.inside_leaf.mpr within
  obtain rfl : secret = leafSecret suite kdf encryptionSecret height leaf := by
    have value := inv.frontier.value (Nat.zero_le _) inside.within found
    rwa [Nat.sub_zero] at value
  have handshakeBound : leaf < (tree.ratchets .handshakeSecret).length := by rw [inv.length]; exact within
  have applicationBound : leaf < (tree.ratchets .applicationSecret).length := by rw [inv.length]; exact within
  rw [startRatchets, ← Beekem.node_zero, after_bind, after_getNode inv.full inside, found, after_bind]
  refine after_expand computes ?_ fun error fails => ⟨rfl, error, rfl, _, _, _, _, fails⟩
  rw [after_bind]
  refine after_expand computes ?_ fun error fails => ⟨rfl, error, rfl, _, _, _, _, fails⟩
  rw [after_bind, after_get, inv.own, after_bind, after_writeRatchet handshakeBound, after_bind]
  refine (after_writeRatchet ?_).mpr ?_
  · exact applicationBound
  refine (after_setNode ?_ inside none).mpr ⟨?_, ?_⟩
  · exact ⟨inv.full.leaves, inv.full.parents⟩
  · have spent := inv.initialise within here
    rwa [Beekem.node_zero]
  · rw [Beekem.node_zero]
    rintro (_ | _)
    · exact List.getElem?_set_self handshakeBound
    · exact List.getElem?_set_self applicationBound

/-- The ratchets of a leaf that has not got any are those of the secrets derived down from the root. -/
theorem after_initializeSenderRatchets (computes : provider.Computes kdf) (low : height ≤ 30)
    (inv : Inv suite kdf encryptionSecret height ownIndex tree) :
    After (initializeSenderRatchets suite provider leaf tree)
      (fun _ tree' => Inv suite kdf encryptionSecret height ownIndex tree' ∧ tree'.Initialised leaf ∧
        (tree.Initialised leaf ∧ tree' = tree ∨ ¬ tree.Initialised leaf ∧ ∀ secretType,
          (tree'.ratchets secretType)[leaf]? = some (some (firstRatchet ownIndex leaf
            (ratchetSecret suite kdf encryptionSecret height secretType leaf)))))
      (fun error tree' => Inv suite kdf encryptionSecret height ownIndex tree' ∧
        (FailedCrypto provider error ∨ error = .indexOutOfBounds ∧ 2 ^ height ≤ leaf)) := by
  rw [initializeSenderRatchets, after_bind, after_get, inv.size, Beekem.leafCount_ofHeight]
  by_cases outside : leaf ≥ 2 ^ height
  · rw [if_pos outside]
    exact ⟨inv, .inr ⟨rfl, outside⟩⟩
  rw [if_neg outside]
  have within : leaf < 2 ^ height := by omega
  have entry : ∀ secretType, ∃ ratchet, (tree.ratchets secretType)[leaf]? = some ratchet := fun secretType =>
    ⟨_, List.getElem?_eq_getElem (by rw [inv.length]; exact within)⟩
  obtain ⟨handshake, foundHandshake⟩ := entry .handshakeSecret
  obtain ⟨application, foundApplication⟩ := entry .applicationSecret
  beta_reduce
  rw [after_bind, after_ratchetOpt foundHandshake, after_bind, after_ratchetOpt foundApplication]
  by_cases before : tree.Initialised leaf
  · obtain ⟨ratchet, found⟩ := id before
    obtain ⟨ratchet', found'⟩ := (inv.both .applicationSecret leaf).mpr before
    rw [if_pos]
    · exact ⟨inv, before, .inl ⟨before, rfl⟩⟩
    · rw [Option.some.inj (foundHandshake.symm.trans found), Option.some.inj (foundApplication.symm.trans found')]
      rfl
  · rw [if_neg, after_bind]
    · refine (after_deriveToLeaf computes low inv.size inv.full inv.frontier within before).mono ?_ ?_
      · rintro _ tree' ⟨⟨full, same, frontier⟩, here⟩
        have inv' := inv.of_same full same frontier
        refine (after_startRatchets computes inv' within here).mono ?_ ?_
        · rintro _ tree'' ⟨inv'', first⟩
          exact ⟨inv'', ⟨_, first .handshakeSecret⟩, .inr ⟨before, first⟩⟩
        · rintro error tree'' ⟨rfl, failed⟩
          exact ⟨inv', .inl failed⟩
      · rintro error tree' ⟨⟨full, same, frontier⟩, failed⟩
        exact ⟨inv.of_same full same frontier, .inl failed⟩
    · intro both
      obtain ⟨isSome, -⟩ := Bool.and_eq_true_iff.mp both
      obtain ⟨ratchet, rfl⟩ := Option.isSome_iff_exists.mp isSome
      exact before ⟨ratchet, foundHandshake⟩

/-! ### Calls -/

theorem Inv.setRatchets {old new : SenderRatchet Secret}
    (inv : Inv suite kdf encryptionSecret height ownIndex tree)
    (found : (tree.ratchets secretType)[leaf]? = some (some old))
    (evolves : SenderRatchet.Evolves kdf suite
      (firstRatchet ownIndex leaf (ratchetSecret suite kdf encryptionSecret height secretType leaf)) new) :
    Inv suite kdf encryptionSecret height ownIndex
      (tree.setRatchets ((tree.ratchets secretType).set leaf (some new)) secretType) := by
  set tree' := tree.setRatchets ((tree.ratchets secretType).set leaf (some new)) secretType with isTree
  have bound : leaf < (tree.ratchets secretType).length := (List.getElem?_eq_some_iff.mp found).1
  have self : tree'.ratchets secretType = (tree.ratchets secretType).set leaf (some new) := by
    cases secretType <;> rfl
  have others : ∀ other, other ≠ secretType → tree'.ratchets other = tree.ratchets other := by
    intro other apart
    cases secretType <;> cases other <;> first | rfl | exact absurd rfl apart
  have has : ∀ other (index : Nat), (∃ ratchet, (tree'.ratchets other)[index]? = some (some ratchet)) ↔
      ∃ ratchet, (tree.ratchets other)[index]? = some (some ratchet) := by
    intro other index
    by_cases same : other = secretType
    · subst same
      rw [self]
      by_cases here : leaf = index
      · subst here
        exact ⟨fun _ => ⟨old, found⟩, fun _ => ⟨new, List.getElem?_set_self bound⟩⟩
      · simp [here]
    · rw [others other same]
  have initialised : tree'.Initialised = tree.Initialised :=
    funext fun index => propext (has .handshakeSecret index)
  have stored : tree'.stored = tree.stored := by cases secretType <;> rfl
  exact {
    size := by cases secretType <;> exact inv.size
    own := by cases secretType <;> exact inv.own
    full := by cases secretType <;> exact ⟨inv.full.leaves, inv.full.parents⟩
    length := by
      intro other
      by_cases same : other = secretType
      · subst same
        rw [self, List.length_set, inv.length]
      · rw [others other same, inv.length]
    frontier := by
      rw [stored, initialised]
      exact inv.frontier
    both := fun other index => by rw [has, initialised, inv.both]
    evolves := by
      intro other index ratchet there
      by_cases same : other = secretType
      · subst same
        rw [self, List.getElem?_set] at there
        by_cases here : leaf = index
        · subst here
          rw [if_pos rfl, if_pos bound] at there
          obtain rfl := Option.some.inj (Option.some.inj there)
          exact evolves
        · rw [if_neg here] at there
          exact inv.evolves there
      · rw [others other same] at there
        exact inv.evolves there }

/-- The invariant holds, with or without an error. -/
def Keeps {α : Type} (suite : Ciphersuite) (kdf : Kdf Secret) (encryptionSecret : Secret) (height ownIndex : Nat)
    (result : EStateM.Result SecretTreeError (SecretTree Secret) α) : Prop :=
  After result (fun _ tree => Inv suite kdf encryptionSecret height ownIndex tree)
    (fun _ tree => Inv suite kdf encryptionSecret height ownIndex tree)

variable {α : Type}

theorem Keeps.final {result : EStateM.Result SecretTreeError (SecretTree Secret) α}
    (keeps : Keeps suite kdf encryptionSecret height ownIndex result) :
    Inv suite kdf encryptionSecret height ownIndex (Stateful.final result) := by
  cases result with
  | ok _ _ => exact keeps
  | error _ _ => exact keeps

theorem keeps_onRatchet {σ : Type} {pack : σ → SenderRatchet Secret}
    {method : EStateM SecretTreeError σ α} {ratchet : σ}
    (inv : Inv suite kdf encryptionSecret height ownIndex tree)
    (found : (tree.ratchets secretType)[leaf]? = some (some (pack ratchet)))
    (evolves : SenderRatchet.Evolves kdf suite
      (firstRatchet ownIndex leaf (ratchetSecret suite kdf encryptionSecret height secretType leaf))
      (pack (final (method ratchet)))) :
    Keeps suite kdf encryptionSecret height ownIndex (onRatchet leaf secretType pack method ratchet tree) := by
  have bound : leaf < (tree.ratchets secretType).length := (List.getElem?_eq_some_iff.mp found).1
  have inv' := inv.setRatchets found evolves
  rw [Keeps, onRatchet]
  cases result : method ratchet with
  | ok value ratchet' =>
    rw [result] at inv'
    rw [after_bind]
    exact (after_writeRatchet bound).mpr inv'
  | error error ratchet' =>
    rw [result] at inv'
    rw [after_bind]
    exact (after_writeRatchet bound).mpr inv'

/-- Both kinds of calls make the ratchets of a leaf if they have to, and go on with the one that they need. -/
theorem keeps_withRatchet
    {use : SenderRatchet Secret → SecretTreeM Secret α} (computes : provider.Computes kdf) (low : height ≤ 30)
    (inv : Inv suite kdf encryptionSecret height ownIndex tree)
    (rest : ∀ {tree' ratchet}, Inv suite kdf encryptionSecret height ownIndex tree' →
      (tree'.ratchets secretType)[leaf]? = some (some ratchet) →
      Keeps suite kdf encryptionSecret height ownIndex (use ratchet tree')) :
    Keeps suite kdf encryptionSecret height ownIndex ((do
      if (← ratchetOpt leaf secretType).isNone then initializeSenderRatchets suite provider leaf
      use (← ratchetMut leaf secretType)) tree) := by
  have go : ∀ {tree'}, Inv suite kdf encryptionSecret height ownIndex tree' →
      Keeps suite kdf encryptionSecret height ownIndex ((ratchetMut leaf secretType >>= use) tree') := by
    intro tree' inv'
    rw [Keeps, after_bind, ratchetMut, after_bind, after_get]
    rcases found : (tree'.ratchets secretType)[leaf]? with _ | _ | ratchet
    · exact inv'
    · exact inv'
    · exact rest inv' found
  rw [Keeps, after_bind]
  cases found : (tree.ratchets secretType)[leaf]? with
  | none =>
    rw [ratchetOpt, after_bind, after_get, found]
    exact inv
  | some ratchet =>
    rw [after_ratchetOpt found]
    split
    · rw [after_bind]
      refine (after_initializeSenderRatchets computes low inv).mono ?_ ?_
      · rintro _ tree' ⟨inv', -⟩
        exact go inv'
      · rintro error tree' ⟨inv', -⟩
        exact inv'
    · exact go inv

theorem keeps_secretForEncryption (computes : provider.Computes kdf)
    (low : height ≤ 30) (inv : Inv suite kdf encryptionSecret height ownIndex tree) :
    Keeps suite kdf encryptionSecret height ownIndex (secretForEncryption suite provider leaf secretType tree) := by
  refine keeps_withRatchet computes low inv fun {tree' ratchet} inv' found => ?_
  cases ratchet with
  | decryptionRatchet _ => exact inv'
  | encryptionRatchet encRatchet =>
    exact keeps_onRatchet inv' found (.encrypt (inv'.evolves found) computes)

theorem keeps_secretForDecryption {generation : Nat}
    {configuration : SenderRatchetConfiguration} (computes : provider.Computes kdf)
    (low : height ≤ 30) (inv : Inv suite kdf encryptionSecret height ownIndex tree) :
    Keeps suite kdf encryptionSecret height ownIndex
      (secretForDecryption suite provider leaf secretType generation configuration tree) := by
  rw [secretForDecryption, Keeps, after_bind, after_get]
  split
  · exact inv
  · refine keeps_withRatchet computes low inv fun {tree' ratchet} inv' found => ?_
    cases ratchet with
    | encryptionRatchet _ => exact inv'
    | decryptionRatchet decRatchet =>
      exact keeps_onRatchet inv' found (.decrypt (inv'.evolves found) computes generation configuration)

end Initialise

theorem inv_new (suite : Ciphersuite) (kdf : Kdf Secret) (encryptionSecret : Secret) (height ownIndex : Nat) :
    Inv suite kdf encryptionSecret height ownIndex (new encryptionSecret (.ofHeight height) ownIndex) := by
  set blank : SecretTree Secret := {
    ownIndex
    leafNodes := List.replicate (2 ^ height) none
    parentNodes := List.replicate (2 ^ height) none
    handshakeSenderRatchets := List.replicate (2 ^ height) none
    applicationSenderRatchets := List.replicate (2 ^ height) none
    size := .ofHeight height } with isBlank
  have full : Full height blank := ⟨List.length_replicate, List.length_replicate⟩
  have inside : Beekem.Inside height height 0 := Beekem.inside_root height
  have made : new encryptionSecret (.ofHeight height) ownIndex
      = blank.withNode (node height 0) (some encryptionSecret) := by
    rw [new, Beekem.leafCount_ofHeight, Beekem.root_ofHeight]
    have written : After (setNode (node height 0) (some encryptionSecret) blank)
        (fun _ tree => tree = blank.withNode (node height 0) (some encryptionSecret)) (fun _ _ => False) :=
      (after_setNode full inside _).mpr rfl
    show final (setNode (node height 0) (some encryptionSecret) blank) = _
    cases result : setNode (node height 0) (some encryptionSecret) blank with
    | ok _ tree =>
      rw [result] at written
      exact written
    | error _ _ =>
      rw [result] at written
      exact written.elim
  have same := sameRatchets_withNode blank (node height 0) (some encryptionSecret)
  have ratchets : ∀ secretType, (blank.withNode (node height 0) (some encryptionSecret)).ratchets secretType
      = List.replicate (2 ^ height) none := by
    rintro (_ | _)
    · exact same.handshake
    · exact same.application
  have none_found : ∀ secretType (leaf : Nat) ratchet,
      ((blank.withNode (node height 0) (some encryptionSecret)).ratchets secretType)[leaf]?
        ≠ some (some ratchet) := by
    intro secretType leaf ratchet found
    rw [ratchets, List.getElem?_replicate] at found
    split at found <;> simp at found
  have initialised : (blank.withNode (node height 0) (some encryptionSecret)).Initialised = fun _ => False :=
    funext fun leaf => propext ⟨fun ⟨ratchet, found⟩ => none_found _ _ _ found, False.elim⟩
  have empty : blank.stored = fun _ _ => none := by
    funext k p
    rw [stored]
    cases node k p <;> simp only [nodeAt, isBlank, List.getElem?_replicate] <;> split <;> rfl
  rw [made]
  exact {
    size := same.size
    own := same.own
    full := full.withNode _ _
    length := fun secretType => by rw [ratchets, List.length_replicate]
    frontier := by
      rw [full.stored_withNode inside, empty, initialised]
      exact frontier_root
    both := fun secretType leaf => by
      rw [initialised]
      exact ⟨fun ⟨ratchet, found⟩ => none_found _ _ _ found, False.elim⟩
    evolves := fun found => absurd found (none_found _ _ _) }

/-! ### Runs -/

/-- A call of one of the two methods, with the provider it uses. -/
inductive Request (Secret : Type)
  | encryption (provider : Provider Secret) (index : Nat) (secretType : SecretType)
  | decryption (provider : Provider Secret) (index : Nat) (secretType : SecretType) (generation : Nat)
      (configuration : SenderRatchetConfiguration)

def Request.provider : Request Secret → Provider Secret
  | .encryption provider .. => provider
  | .decryption provider .. => provider

def apply (suite : Ciphersuite) (tree : SecretTree Secret) : Request Secret → SecretTree Secret
  | .encryption provider index secretType => final (secretForEncryption suite provider index secretType tree)
  | .decryption provider index secretType generation configuration =>
    final (secretForDecryption suite provider index secretType generation configuration tree)

def run (suite : Ciphersuite) (encryptionSecret : Secret) (size : TreeSize) (ownIndex : Nat)
    (requests : List (Request Secret)) : SecretTree Secret :=
  requests.foldl (apply suite) (new encryptionSecret size ownIndex)

theorem inv_run {suite : Ciphersuite} {kdf : Kdf Secret} {encryptionSecret : Secret} {height ownIndex : Nat}
    (low : height ≤ 30) {requests : List (Request Secret)}
    (computes : ∀ request ∈ requests, request.provider.Computes kdf) :
    Inv suite kdf encryptionSecret height ownIndex
      (run suite encryptionSecret (.ofHeight height) ownIndex requests) := by
  induction requests using List.reverseRecOn with
  | nil => exact inv_new suite kdf encryptionSecret height ownIndex
  | append_singleton before request ih =>
    have inv := ih fun other among => computes other (List.mem_append_left _ among)
    have provider := computes request (by simp)
    rw [run, List.foldl_append]
    show Inv suite kdf encryptionSecret height ownIndex (apply suite (run suite encryptionSecret _ ownIndex before) request)
    cases request with
    | encryption => exact (keeps_secretForEncryption provider low inv).final
    | decryption => exact (keeps_secretForDecryption provider low inv).final

/-- **The secret tree is order independent and forward secret.** After any calls: a leaf that has its ratchets has no
secret left on its path, and its ratchets have evolved from those of the secrets derived down from the root. Making
the ratchets of a leaf gives exactly these, and fails only if the provider does or if there is no such leaf. -/
theorem run_secretTree (suite : Ciphersuite) (kdf : Kdf Secret) (encryptionSecret : Secret) {height : Nat}
    (ownIndex : Nat) (low : height ≤ 30) {requests : List (Request Secret)}
    (computes : ∀ request ∈ requests, request.provider.Computes kdf) :
    (∀ leaf < 2 ^ height, ∀ secretType ratchet,
      ((run suite encryptionSecret (.ofHeight height) ownIndex requests).ratchets secretType)[leaf]?
        = some (some ratchet) →
      SenderRatchet.Evolves kdf suite
        (firstRatchet ownIndex leaf (ratchetSecret suite kdf encryptionSecret height secretType leaf)) ratchet ∧
      ∀ k ≤ height, (run suite encryptionSecret (.ofHeight height) ownIndex requests).nodeAt (node k (leaf / 2 ^ k))
        = some none) ∧
    ∀ (provider : Provider Secret) (leaf : Nat), provider.Computes kdf →
      After (initializeSenderRatchets suite provider leaf
          (run suite encryptionSecret (.ofHeight height) ownIndex requests))
        (fun _ tree => tree.Initialised leaf ∧
          (∀ k ≤ height, tree.nodeAt (node k (leaf / 2 ^ k)) = some none) ∧
          ((run suite encryptionSecret (.ofHeight height) ownIndex requests).Initialised leaf ∨
            ∀ secretType, (tree.ratchets secretType)[leaf]? = some (some (firstRatchet ownIndex leaf
              (ratchetSecret suite kdf encryptionSecret height secretType leaf)))))
        (fun error _ => FailedCrypto provider error ∨ error = .indexOutOfBounds ∧ 2 ^ height ≤ leaf) := by
  have inv : Inv suite kdf encryptionSecret height ownIndex
      (run suite encryptionSecret (.ofHeight height) ownIndex requests) := inv_run low computes
  have cleared : ∀ {tree : SecretTree Secret} {leaf}, Inv suite kdf encryptionSecret height ownIndex tree →
      leaf < 2 ^ height → tree.Initialised leaf → ∀ k ≤ height, tree.nodeAt (node k (leaf / 2 ^ k)) = some none := by
    intro tree leaf inv within initialised k inTree
    rw [inv.full.nodeAt (inside_path within inTree), inv.frontier.cleared within initialised inTree]
  refine ⟨fun leaf within secretType ratchet found => ⟨inv.evolves found, ?_⟩, fun provider leaf computes => ?_⟩
  · exact cleared inv within ((inv.both secretType leaf).mp ⟨ratchet, found⟩)
  · refine (after_initializeSenderRatchets computes low inv).mono ?_ ?_
    · rintro _ tree ⟨inv', initialised, made⟩
      have within : leaf < 2 ^ height := by
        obtain ⟨ratchet, found⟩ := initialised
        rw [← inv'.length .handshakeSecret]
        exact (List.getElem?_eq_some_iff.mp found).1
      refine ⟨initialised, cleared inv' within initialised, ?_⟩
      rcases made with ⟨before, -⟩ | ⟨-, first⟩
      · exact .inl before
      · exact .inr first
    · exact fun error tree fails => fails.2

namespace Sample

def suite : Ciphersuite := ⟨32, 16, 12⟩

/-- Secrets are numbers. -/
def kdf : Kdf Nat := fun secret label context _ => 100 * secret + label.length + context.length

/-- In a tree with four leaves, the first message of leaf 2 is to be decrypted. -/
def requests : List (Request Nat) :=
  [.decryption (.ofKdf kdf) 2 .applicationSecret 0 ⟨5, 1000⟩]

/-- Afterwards leaf 2 has its ratchets and no secret is left on its path; leaf 1 gets its ratchets, too. -/
theorem ratchets_made :
    (∃ ratchet, ((run suite 7 (.ofHeight 2) 0 requests).ratchets .handshakeSecret)[2]? = some (some ratchet) ∧
      ∀ k ≤ 2, (run suite 7 (.ofHeight 2) 0 requests).nodeAt (node k (2 / 2 ^ k)) = some none) ∧
    ∃ tree, initializeSenderRatchets suite (.ofKdf kdf) 1 (run suite 7 (.ofHeight 2) 0 requests) = .ok () tree ∧
      ∀ secretType, (tree.ratchets secretType)[1]?
        = some (some (firstRatchet 0 1 (ratchetSecret suite kdf 7 2 secretType 1))) := by
  have total : Provider.Computes (.ofKdf kdf) kdf := fun _ _ _ _ _ same => (Except.ok.inj same).symm
  have computes : ∀ request ∈ requests, request.provider.Computes kdf := by
    intro request among
    rw [requests, List.mem_singleton] at among
    subst among
    exact total
  obtain ⟨ratchet, found⟩ : ∃ ratchet,
      ((run suite 7 (.ofHeight 2) 0 requests).ratchets .handshakeSecret)[2]? = some (some ratchet) :=
    ⟨.decryptionRatchet (.new 7090809), by decide +kernel⟩
  obtain ⟨kept, makes⟩ := run_secretTree suite kdf 7 0 (by decide : 2 ≤ 30) computes
  refine ⟨⟨ratchet, found, (kept 2 (by decide) .handshakeSecret ratchet found).2⟩, ?_⟩
  have made := makes (.ofKdf kdf) 1 total
  cases result : initializeSenderRatchets suite (.ofKdf kdf) 1 (run suite 7 (.ofHeight 2) 0 requests) with
  | ok _ tree =>
    rw [result] at made
    obtain ⟨-, -, ⟨before, has⟩ | first⟩ := made
    · have hasNone : ((run suite 7 (.ofHeight 2) 0 requests).ratchets .handshakeSecret)[1]? = some none := by
        decide +kernel
      rw [hasNone] at has
      cases has
    · exact ⟨tree, rfl, first⟩
  | error error tree =>
    rw [result] at made
    obtain ⟨cause, -, secret, label, context, length, fails⟩ | ⟨-, outside⟩ := made
    · cases fails
    · exact absurd outside (by decide)

end Sample

end SecretTree

end KeyhiveEval.Mls
