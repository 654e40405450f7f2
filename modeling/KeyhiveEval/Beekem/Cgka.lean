/-
**`cgka.rs` and `pcs_key.rs`: one replica of the group.**

A method on `&mut self` is a computation in `CgkaM`, which keeps the changes that were made before
an error. The digests of operations and of keys are fields of `Suite`; a signer is a parameter of
the calls that sign.

* `add`, `remove` and `update` are the local operations. Each replays the whole graph first if
  concurrent operations are pending.
* `mergeConcurrentOperation` receives an operation of another replica.
* `replayOpsGraph` rebuilds the tree from the first add, epoch by epoch.
* `newAppSecretFor` and `decryptionKeyFor` derive the keys of contents.
-/

import KeyhiveEval.Beekem.Operation

namespace KeyhiveEval.Beekem

open Std

/-! ### Digests, signers and contents -/

inductive PcsKeyTag

inductive ShareSecretKeyTag

abbrev PcsDigest := Digest PcsKeyTag

/-- The cryptographic primitives with the digests of the values that the crate hashes. -/
structure Suite extends Crypto where
  hashOp : SignedOp → OpDigest
  hashPcsKey : PcsKey → PcsDigest
  hashShareSecretKey : ShareSecretKey → Digest ShareSecretKeyTag

/-- A signer: its verifying key and how it signs an operation, if it does. -/
structure Signer where
  verifyingKey : Bytes32 VerifyingKeyTag
  trySign : CgkaOperation → Option (BitVec 512)

def Signer.trySignAsync (signer : Signer) (payload : CgkaOperation) : Res SignedOp :=
  match signer.trySign payload with
  | some signature => .ok ⟨payload, signer.verifyingKey, signature⟩
  | none => .error (.err .signingError)

/-- References to contents, with the digests of one and of several. -/
class ContentRef (Cr : Type) where
  hash : Cr → Digest Cr
  hashAll : List Cr → Digest (List Cr)

/-- How a digest is printed. -/
def Digest.display {α : Type} (digest : Digest α) : String :=
  "Digest(" ++ digest.raw.toHex ++ ")"

/-- A symmetric key with what a reader needs to derive it again. -/
structure ApplicationSecret (Cr : Type) where
  key : SymmetricKey
  pcsKeyHash : PcsDigest
  pcsUpdateOpHash : OpDigest
  nonce : Siv
  contentRef : Cr
  predRefs : Digest (List Cr)

structure EncryptedContent (Cr : Type) where
  nonce : Siv
  ciphertext : List UInt8
  pcsKeyHash : PcsDigest
  pcsUpdateOpHash : OpDigest
  contentRef : Cr
  predRefs : Digest (List Cr)

def ApplicationSecret.tryEncrypt {Cr : Type} (𝒞 : Crypto) (secret : ApplicationSecret Cr)
    (plaintext : List UInt8) : Option (EncryptedContent Cr) :=
  (secret.key.tryEncrypt 𝒞 secret.nonce plaintext).map fun ciphertext =>
    { nonce := secret.nonce
      ciphertext
      pcsKeyHash := secret.pcsKeyHash
      pcsUpdateOpHash := secret.pcsUpdateOpHash
      contentRef := secret.contentRef
      predRefs := secret.predRefs }

namespace PcsKey

variable (S : Suite) {Cr : Type} [ContentRef Cr]

def staticContext : String := "/keyhive/beekem/app_secret/"

def toSymmetricKey (key : PcsKey) : SymmetricKey :=
  ⟨S.blake3DeriveKey separatorStr key.secret.toBytes⟩

def deriveApplicationSecret (key : PcsKey) (nonce : Siv) (contentRef : Cr)
    (predRefs : Digest (List Cr)) (pcsUpdateOpHash : OpDigest) : ApplicationSecret Cr :=
  let context := "epoch:" ++ (S.hashShareSecretKey key.secret).display ++ "/pred:" ++
    predRefs.display ++ "/content:" ++ (ContentRef.hash contentRef).display
  let keyMaterial := key.secret.toBytes ++ context.toUTF8.toList
  let appSecretBytes := S.blake3DeriveKey staticContext keyMaterial
  { key := ⟨S.blake3DeriveKey separatorStr appSecretBytes.toList⟩
    pcsKeyHash := S.hashPcsKey key
    pcsUpdateOpHash
    nonce
    contentRef
    predRefs }

end PcsKey

/-! ### Replicas -/

structure Cgka where
  docId : TreeId
  ownerId : MemberId
  ownerSks : ShareKeyMap
  tree : BeeKem
  opsGraph : CgkaOperationGraph
  /-- Whether the graph has operations that were not applied to the tree. -/
  pendingOpsForStructuralChange : Bool
  pcsKeys : ExtTreeMap PcsDigest PcsKey
  /-- The update operation of each PCS key. -/
  pcsKeyOps : ExtTreeMap PcsDigest OpDigest
  originalMember : MemberId × ShareKey
  initAddOp : SignedOp
deriving DecidableEq

abbrev CgkaM := EStateM Fault Cgka

namespace Cgka

def onTree {α : Type} (run : EStateM Fault BeeKem α) : CgkaM α := fun cgka =>
  match run cgka.tree with
  | .ok a tree => .ok a { cgka with tree }
  | .error fault tree => .error fault { cgka with tree }

def onSks {α : Type} (run : EStateM Fault ShareKeyMap α) : CgkaM α := fun cgka =>
  match run cgka.ownerSks with
  | .ok a ownerSks => .ok a { cgka with ownerSks }
  | .error fault ownerSks => .error fault { cgka with ownerSks }

/-- A computation on another replica: this one keeps its state. -/
def runOn {α : Type} (other : Cgka) (run : CgkaM α) : CgkaM (α × Cgka) := fun cgka =>
  match run other with
  | .ok a other => .ok (a, other) cgka
  | .error fault _ => .error fault cgka

def groupSize (cgka : Cgka) : Nat := cgka.tree.memberCount

/-- Whether there is unresolved concurrency. -/
def shouldReplay (cgka : Cgka) : Bool :=
  !cgka.opsGraph.cgkaOpHeads.isEmpty &&
    (cgka.pendingOpsForStructuralChange || !cgka.opsGraph.hasSingleHead)

def hasPcsKey (cgka : Cgka) : Res Bool := do
  let hasRoot ← cgka.tree.hasRootKey
  return hasRoot && cgka.opsGraph.hasSingleHead && decide (cgka.opsGraph.addHeads.size < 2)

variable (S : Suite)

def newFromInitAdd (docId : TreeId) (ownerId : MemberId) (ownerPk : ShareKey)
    (initAddOp : SignedOp) : Res Cgka := do
  let tree ← BeeKem.new docId ownerId ownerPk
  return {
    docId
    ownerId
    ownerSks := ∅
    tree
    opsGraph := CgkaOperationGraph.new.addLocalOp S.hashOp initAddOp
    pendingOpsForStructuralChange := false
    pcsKeys := ∅
    pcsKeyOps := ∅
    originalMember := (ownerId, ownerPk)
    initAddOp }

def new (docId : TreeId) (ownerId : MemberId) (ownerPk : ShareKey) (signer : Signer) : Res Cgka := do
  let signedOp ← signer.trySignAsync (.initAdd docId ownerId ownerPk)
  newFromInitAdd S docId ownerId ownerPk signedOp

/-- The same replica in other hands. -/
def withNewOwner (cgka : Cgka) (myId : MemberId) (ownerSks : ShareKeyMap) : Cgka :=
  { cgka with ownerId := myId, ownerSks }

def insertPcsKey (pcsKey : PcsKey) (opHash : OpDigest) : CgkaM Unit :=
  modify fun cgka =>
    { cgka with
      pcsKeyOps := cgka.pcsKeyOps.insert (S.hashPcsKey pcsKey) opHash
      pcsKeys := cgka.pcsKeys.insert (S.hashPcsKey pcsKey) pcsKey }

/-- Decrypt the root of the tree. -/
def pcsKeyFromTreeRoot : CgkaM PcsKey := do
  let cgka ← get
  let secret ← onSks (cgka.tree.decryptTreeSecret S.toCrypto cgka.ownerId)
  return ⟨secret⟩

/-! ### Applying operations -/

/-- What an operation does to the tree. -/
def applyToTree (tree : BeeKem) : CgkaOperation → Res BeeKem
  | .add addedId pk .. => do
    let (_, tree) ← tree.pushLeaf addedId (.shareKey pk)
    return tree
  | .remove id .. => do
    let (_, tree) ← tree.removeId id
    return tree
  | .update _ newPath .. => tree.applyPath newPath

/-- Apply an operation to the tree and add it to the graph. -/
def applyOperation (op : SignedOp) : CgkaM Unit := do
  let cgka ← get
  if cgka.opsGraph.containsOpHash (S.hashOp op) then return ()
  else
    let tree ← liftRes (applyToTree cgka.tree op.payload)
    set { cgka with
      tree
      opsGraph := cgka.opsGraph.addOp S.hashOp op op.payload.predecessors }

def applyOperations : List SignedOp → CgkaM Unit
  | [] => return ()
  | op :: rest => do
    applyOperation S op
    applyOperations rest

def addedIds (epoch : CgkaEpoch) : ExtTreeSet MemberId :=
  epoch.foldl (fun ids op => match op.payload with
    | .add addedId .. => ids.insert addedId
    | _ => ids) ∅

/-- The members that the operations remove, each with the leaf that the operation records. -/
def removedIds (epoch : CgkaEpoch) : List (MemberId × Nat) :=
  epoch.foldl (fun ids op => match op.payload with
    | .remove id leafIdx .. => ids.insert (id, leafIdx)
    | _ => ids) []

def applyEpoch (epoch : CgkaEpoch) : CgkaM Unit := do
  applyOperations S epoch
  if epoch.length = 1 ∨ epoch.all (fun op => op.payload.isUpdate) then return ()
  else
    let cgka ← get
    let tree ← liftRes
      (cgka.tree.sortLeavesAndBlankPathsForConcurrentMembershipChanges (addedIds epoch)
        (removedIds epoch))
    set { cgka with tree }

def applyEpochs : List CgkaEpoch → CgkaM Unit
  | [] => return ()
  | epoch :: rest => do
    applyEpoch S epoch
    applyEpochs rest

/-! ### Replaying -/

/-- The replica before any operation, with the owner of this one. -/
def rebuildStart (cgka : Cgka) : Res Cgka := do
  let start ← newFromInitAdd S cgka.docId cgka.originalMember.1 cgka.originalMember.2 cgka.initAddOp
  return start.withNewOwner cgka.ownerId cgka.ownerSks

/-- The first operation of the last epoch. -/
def lastFirst (epochs : List CgkaEpoch) : Res SignedOp :=
  match epochs.getLast?.bind List.head? with
  | some op => .ok op
  | none => .error (.panic "index out of bounds")

def rebuildOn (epochs : List CgkaEpoch) : CgkaM Unit := do
  applyEpochs S epochs
  let rebuilt ← get
  if ← liftRes rebuilt.hasPcsKey then
    let pcsKey ← pcsKeyFromTreeRoot S
    insertPcsKey S pcsKey (S.hashOp (← liftRes (lastFirst epochs)))
  else return ()

def rebuildCgka (epochs : List CgkaEpoch) : CgkaM Cgka := do
  let start ← liftRes (rebuildStart S (← get))
  let (_, rebuilt) ← runOn start (rebuildOn S epochs)
  return rebuilt

/-- Take over the tree and the keys of another replica. -/
def updateCgkaFrom (cgka other : Cgka) : Cgka :=
  { cgka with
    tree := other.tree
    ownerSks := cgka.ownerSks.extend other.ownerSks
    pcsKeys := other.pcsKeys.foldl (fun all digest key => all.insert digest key) cgka.pcsKeys
    pcsKeyOps := other.pcsKeyOps.foldl (fun all digest op => all.insert digest op) cgka.pcsKeyOps
    pendingOpsForStructuralChange := other.pendingOpsForStructuralChange }

/-- Replay all operations of the graph in a fixed order. -/
def replayOpsGraph : CgkaM Unit := do
  let cgka ← get
  let orderedOps ← liftRes cgka.opsGraph.topsortGraph
  let rebuilt ← rebuildCgka S orderedOps
  modify fun cgka =>
    { cgka.updateCgkaFrom rebuilt with pendingOpsForStructuralChange := false }

/-- Replay if there is unresolved concurrency. -/
def replayIfNeeded : CgkaM Unit := do
  if (← get).shouldReplay then replayOpsGraph S else return ()

/-! ### Local operations -/

/-- Sign an operation and add it to the graph as the new head. -/
def commitOperation (signer : Signer) (op : CgkaOperation) : CgkaM SignedOp := do
  let signedOp ← liftRes (signer.trySignAsync op)
  modify fun cgka => { cgka with opsGraph := cgka.opsGraph.addLocalOp S.hashOp signedOp }
  return signedOp

def add (id : MemberId) (pk : ShareKey) (signer : Signer) : CgkaM (Option SignedOp) := do
  if (← get).tree.containsId id then return none
  else
    replayIfNeeded S
    let cgka ← get
    let (leafIndex, tree) ← liftRes (cgka.tree.pushLeaf id (.shareKey pk))
    set { cgka with tree }
    let op ← commitOperation S signer
      (.add id pk leafIndex cgka.opsGraph.cgkaOpHeads.toList cgka.opsGraph.addHeads.toList
        cgka.docId)
    return some op

def remove (id : MemberId) (signer : Signer) : CgkaM (Option SignedOp) := do
  if (← get).tree.containsId id then
    replayIfNeeded S
    let cgka ← get
    if cgka.groupSize = 1 then throw (.err .removeLastMember)
    else
      let ((leafIdx, removedKeys), tree) ← liftRes (cgka.tree.removeId id)
      set { cgka with tree }
      let op ← commitOperation S signer
        (.remove id leafIdx removedKeys cgka.opsGraph.cgkaOpHeads.toList cgka.docId)
      return some op
  else return none

/-- Rotate the key of the owner's leaf and of its path. -/
def update (newPk : ShareKey) (newSk : ShareSecretKey) (signer : Signer) (csprng : Rng) :
    CgkaM (PcsKey × SignedOp) := do
  replayIfNeeded S
  modify fun cgka => { cgka with ownerSks := cgka.ownerSks.insert newPk newSk }
  let cgka ← get
  let (pcsKey, newPath) ← onTree
    (BeeKem.encryptPath S.toCrypto cgka.ownerId newPk cgka.ownerSks csprng)
  let op ← commitOperation S signer
    (.update cgka.ownerId newPath cgka.opsGraph.cgkaOpHeads.toList cgka.docId)
  insertPcsKey S pcsKey (S.hashOp op)
  return (pcsKey, op)

/-! ### Operations of other replicas -/

/-- Receive an operation. Concurrent changes of the membership wait in the graph until the next
replay, concurrent updates are applied at once. -/
def mergeConcurrentOperation (op : SignedOp) : CgkaM Bool := do
  let cgka ← get
  if cgka.opsGraph.containsOpHash (S.hashOp op) then return false
  else
    let predecessors := op.payload.predecessors
    if !cgka.opsGraph.containsPredecessors predecessors then
      throw (.err .outOfOrderOperation)
    else
      let opsGraph := cgka.opsGraph.addOp S.hashOp op predecessors
      if cgka.opsGraph.headsContainedIn predecessors then
        replayIfNeeded S
        applyOperation S op
      else if cgka.pendingOpsForStructuralChange then set { cgka with opsGraph }
      else if op.payload.isUpdate then applyOperation S op
      else set { cgka with opsGraph, pendingOpsForStructuralChange := true }
      return true

/-- Merge a fork of the replica: the operations of both, replayed. -/
def merge (fork : Cgka) : CgkaM Unit := do
  modify fun cgka =>
    { cgka with
      ownerSks := cgka.ownerSks.extend fork.ownerSks
      opsGraph := cgka.opsGraph.merge fork.opsGraph
      pcsKeys := fork.pcsKeys.foldl (fun all digest key => all.insertIfNew digest key)
        cgka.pcsKeys }
  fun cgka =>
    match replayOpsGraph S cgka with
    | .error (.err _) cgka =>
      .error (.panic "two valid graphs should always merge causal consistency") cgka
    | result => result

/-! ### Keys of contents -/

/-- Derive the key of an operation by replaying its ancestors. -/
def derivePcsKeyForOp (opHash : OpDigest) : CgkaM PcsKey := do
  let cgka ← get
  if !cgka.opsGraph.containsOpHash opHash then throw (.err .unknownPcsKey)
  else
    let epochs ← liftRes
      (cgka.opsGraph.topsortForHeads ((∅ : ExtTreeSet OpDigest).insert opHash))
    let start ← liftRes (rebuildStart S cgka)
    let (pcsKey, _) ← runOn start (do
      applyEpochs S epochs
      pcsKeyFromTreeRoot S)
    insertPcsKey S pcsKey (S.hashOp (← liftRes (lastFirst epochs)))
    return pcsKey

/-- The key with the given digest, from the cache, from the root of the tree or from a replay. -/
def pcsKeyFromHashes (pcsKeyHash : PcsDigest) (updateOpHash : OpDigest) : CgkaM PcsKey := do
  let cgka ← get
  match cgka.pcsKeys[pcsKeyHash]? with
  | some pcsKey => return pcsKey
  | none =>
    if ← liftRes cgka.hasPcsKey then
      let pcsKey ← pcsKeyFromTreeRoot S
      if S.hashPcsKey pcsKey = pcsKeyHash then return pcsKey
      else derivePcsKeyForOp S updateOpHash
    else derivePcsKeyForOp S updateOpHash

section Content

variable {Cr : Type} [ContentRef Cr]

/-- A secret for a new content, under the current key or under a new one. -/
def newAppSecretFor (contentRef : Cr) (content : List UInt8) (predRefs : List Cr) (signer : Signer)
    (csprng : Rng) : CgkaM (ApplicationSecret Cr × Option SignedOp) := do
  let cgka ← get
  let (currentPcsKey, op) ←
    if ← liftRes cgka.hasPcsKey then do
      let pcsKey ← pcsKeyFromTreeRoot S
      pure (pcsKey, none)
    else do
      let newShareSecretKey := csprng.head
      let newShareKey := newShareSecretKey.shareKey S.toCrypto
      let (pcsKey, updateOp) ← update S newShareKey newShareSecretKey signer csprng.tail
      insertPcsKey S pcsKey (S.hashOp updateOp)
      pure (pcsKey, some updateOp)
  let nonce := Siv.new S.toCrypto (currentPcsKey.toSymmetricKey S) content cgka.docId.asBytes
  match (← get).pcsKeyOps[S.hashPcsKey currentPcsKey]? with
  | none => throw (.panic "PcsKey hash should be present becuase we derived it above")
  | some opHash =>
    return (currentPcsKey.deriveApplicationSecret S nonce contentRef
      (ContentRef.hashAll predRefs) opHash, op)

/-- The key of an encrypted content. -/
def decryptionKeyFor (encrypted : EncryptedContent Cr) : CgkaM SymmetricKey := do
  let pcsKey ← pcsKeyFromHashes S encrypted.pcsKeyHash encrypted.pcsUpdateOpHash
  if !(← get).pcsKeys.contains encrypted.pcsKeyHash then
    insertPcsKey S pcsKey encrypted.pcsUpdateOpHash
  return (pcsKey.deriveApplicationSecret S encrypted.nonce encrypted.contentRef encrypted.predRefs
    encrypted.pcsUpdateOpHash).key

end Content

end Cgka

end KeyhiveEval.Beekem
