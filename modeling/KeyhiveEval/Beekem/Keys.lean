/-
**`keys.rs`, `encrypted.rs` and `secret_store.rs`: what a node of the tree holds.**

* `NodeKey` — one public key, or the keys that concurrent changes left side by side. `NodeKey.merge`
  is the key after a change that replaces `removed`.
* `EncryptedSecret` — a secret key, encrypted under a Diffie-Hellman key of the encrypter's child
  node and of `pairedPk`.
* `SecretStore` — the versions of an inner node. `SecretStore.merge` drops the versions whose key
  the change removes and appends the new ones.
-/

import KeyhiveEval.Beekem.TreeMath

namespace KeyhiveEval.Beekem

open Std

/-! ### Encrypted secrets -/

/-- A secret key encrypted for a node of the tree. -/
structure EncryptedSecret where
  nonce : Siv
  ciphertext : List UInt8
  pairedPk : ShareKey
deriving DecidableEq

/-- Encrypt a secret key under the shared key of `sk` and `pairedPk`. -/
def encryptSecret (𝒞 : Crypto) (docId : TreeId) (secret sk : ShareSecretKey)
    (pairedPk : ShareKey) : Res EncryptedSecret :=
  let key := sk.deriveSymmetricKey 𝒞 pairedPk
  let nonce := Siv.new 𝒞 key secret.toBytes docId.asBytes
  match key.tryEncrypt 𝒞 nonce secret.toBytes with
  | some ciphertext => .ok ⟨nonce, ciphertext, pairedPk⟩
  | none => .error (.err .encryption)

/-- Decrypt with the encrypter's own secret key. -/
def EncryptedSecret.tryEncrypterDecrypt (𝒞 : Crypto) (encrypted : EncryptedSecret)
    (encrypterSecretKey : ShareSecretKey) : Option (List UInt8) :=
  (encrypterSecretKey.deriveSymmetricKey 𝒞 encrypted.pairedPk).tryDecrypt 𝒞 encrypted.nonce
    encrypted.ciphertext

/-! ### The secret keys of a member -/

/-- The secret keys of the public keys that a member has met. -/
abbrev ShareKeyMap := ExtTreeMap ShareKey ShareSecretKey

/-- Decrypt with the secret key of the public key that the secret was encrypted for. -/
def ShareKeyMap.tryDecryptEncryption (𝒞 : Crypto) (sks : ShareKeyMap) (encrypterPk : ShareKey)
    (encrypted : EncryptedSecret) : Res (List UInt8) :=
  match sks[encrypted.pairedPk]? with
  | none => .error (.err .secretKeyNotFound)
  | some sk =>
    match (sk.deriveSymmetricKey 𝒞 encrypterPk).tryDecrypt 𝒞 encrypted.nonce encrypted.ciphertext
    with
    | none => .error (.err .decryption)
    | some bytes => .ok bytes

def ShareKeyMap.extend (sks other : ShareKeyMap) : ShareKeyMap :=
  other.foldl (fun all pk sk => all.insert pk sk) sks

/-! ### Node keys -/

/-- Keys that were concurrently added to one node. -/
structure ConflictKeys where
  first : ShareKey
  second : ShareKey
  more : List ShareKey
deriving DecidableEq

inductive NodeKey
  | shareKey (key : ShareKey)
  | conflictKeys (keys : ConflictKeys)
deriving DecidableEq

def sortKeys (keys : List ShareKey) : List ShareKey :=
  keys.insertionSort fun first second => (compare first second).isLE

namespace NodeKey

def keys : NodeKey → List ShareKey
  | shareKey pk => [pk]
  | conflictKeys keys => keys.first :: keys.second :: keys.more

def containsKey (node : NodeKey) (key : ShareKey) : Bool :=
  match node with
  | shareKey pk => key == pk
  | conflictKeys keys => keys.first == key || keys.second == key || keys.more.contains key

/-- The node key that holds the given keys, if there are any. -/
def ofKeys : List ShareKey → Option NodeKey
  | [] => none
  | [first] => some (shareKey first)
  | first :: second :: more => some (conflictKeys ⟨first, second, more⟩)

/-- The key of a node after a change that brings `newKey` and replaces `removed`. The list of keys
is never empty, since `newKey` has one: the default stands for the source's `unreachable!`. -/
def merge (node newKey : NodeKey) (removed : List ShareKey) : NodeKey :=
  match node with
  | shareKey key =>
    if key ∈ removed then newKey
    else (ofKeys (sortKeys (newKey.keys ++ [key]))).getD newKey
  | conflictKeys keys =>
    let kept := (conflictKeys keys).keys.filter fun k => k ∉ removed
    (ofKeys (sortKeys (newKey.keys ++ kept))).getD newKey

end NodeKey

/-! ### Secret stores -/

/-- The secret key of an inner node, encrypted for each node of a sibling's resolution. -/
structure SecretStoreVersion where
  pk : ShareKey
  sk : ExtTreeMap TreeNodeIndex EncryptedSecret
  /-- The key of the child that encrypted this parent. -/
  encrypterPk : ShareKey
deriving DecidableEq

namespace SecretStoreVersion

/-- The last of the indices seen on the way up that the store has an entry for. -/
def lookupIdx (version : SecretStoreVersion) (seenIdxs : List TreeNodeIndex) :
    Option TreeNodeIndex :=
  seenIdxs.reverse.find? fun idx => version.sk.contains idx

/-- Decrypt the secret key of the node with the secret keys of its descendants. -/
def decryptSecret (𝒞 : Crypto) (version : SecretStoreVersion) (childNodeKey : NodeKey)
    (childSks : ShareKeyMap) (seenIdxs : List TreeNodeIndex) : Res ShareSecretKey := do
  let isEncrypter := childNodeKey.containsKey version.encrypterPk
  let some encrypted := (version.lookupIdx seenIdxs).bind fun idx => version.sk[idx]?
    | .error (.err .encryptedSecretNotFound)
  let decrypted ←
    if isEncrypter then
      match childSks[version.encrypterPk]? with
      | none => .error (.err .secretKeyNotFound)
      | some secretKey =>
        match encrypted.tryEncrypterDecrypt 𝒞 secretKey with
        | none => .error (.err .decryption)
        | some bytes => .ok bytes
    else childSks.tryDecryptEncryption 𝒞 version.encrypterPk encrypted
  match ShareSecretKey.ofBytes decrypted with
  | some secret => .ok secret
  | none => .error (.err .conversion)

end SecretStoreVersion

structure SecretStore where
  versions : List SecretStoreVersion
deriving DecidableEq

namespace SecretStore

def new (pk encrypterPk : ShareKey) (sk : ExtTreeMap TreeNodeIndex EncryptedSecret) : SecretStore :=
  ⟨[⟨pk, sk, encrypterPk⟩]⟩

def hasConflict (store : SecretStore) : Bool := decide (1 < store.versions.length)

def nodeKey (store : SecretStore) : Res NodeKey :=
  match NodeKey.ofKeys (store.versions.map fun version => version.pk) with
  | some key => .ok key
  | none => .error (.panic "There will always be at least one key")

def decryptSecret (𝒞 : Crypto) (store : SecretStore) (childNodeKey : NodeKey)
    (childSks : ShareKeyMap) (seenIdxs : List TreeNodeIndex) : Res ShareSecretKey :=
  if store.hasConflict then .error (.err .unexpectedKeyConflict)
  else
    match store.versions with
    | [] => .error (.panic "index out of bounds")
    | version :: _ => version.decryptSecret 𝒞 childNodeKey childSks seenIdxs

/-- Drop the versions whose key is removed. -/
def removeKeysFrom (store : SecretStore) (removedKeys : List ShareKey) : SecretStore :=
  ⟨store.versions.filter fun version => version.pk ∉ removedKeys⟩

/-- Drop the versions whose key is removed and append those of the other store. -/
def merge (store other : SecretStore) (removedKeys : List ShareKey) : SecretStore :=
  ⟨(store.removeKeysFrom removedKeys).versions ++ other.versions⟩

end SecretStore

abbrev InnerNode := SecretStore

end KeyhiveEval.Beekem
