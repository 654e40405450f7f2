/-
**The key after an update.**

`Cgka::update` replays what is concurrent, encrypts a new path and becomes the only head of the graph. The root of the
tree then has one key, and the owner can derive it from the new leaf. `has_pcs_key` asks for a third thing: that fewer
than two adds are heads among the adds. Only an add makes that number smaller.

* `update_ok` — what an update that returns leaves.
* `Updated.pcsKeyFromTreeRoot_eq` — the owner derives the key of the update again.
* `Reachable.update_then_secret` — after an update the replica has a key, and the next content is encrypted under it, if
  and only if there are fewer than two add heads. Otherwise the next content rotates the key again.
-/

import KeyhiveEval.Beekem.EpochOrder

namespace KeyhiveEval.Beekem

open Std Stateful PerfectTree

namespace Cgka

variable {S : Suite} {newPk : ShareKey} {newSk : ShareSecretKey} {signer : Signer} {csprng : Rng} {pcsKey : PcsKey}
  {op : SignedOp} {cgka mid cgka' : Cgka}

/-- **What an update leaves**: the tree with the new path, the operation as the only head, and the new key. -/
structure Updated (S : Suite) (newPk : ShareKey) (newSk : ShareSecretKey) (csprng : Rng) (mid : Cgka)
    (pcsKey : PcsKey) (op : SignedOp) (cgka' : Cgka) : Prop where
  encrypts : ∃ change, BeeKem.encryptPath S.toCrypto mid.ownerId newPk (mid.ownerSks.insert newPk newSk) csprng mid.tree
    = .ok (pcsKey, change) cgka'.tree
  owner : cgka'.ownerId = mid.ownerId
  sks : cgka'.ownerSks = mid.ownerSks.insert newPk newSk
  graph : cgka'.opsGraph = mid.opsGraph.addLocalOp S.hashOp op
  isUpdate : op.payload.isAdd = false
  key : cgka'.pcsKeyOps[S.hashPcsKey pcsKey]? = some (S.hashOp op)

theorem update_ok (updates : update S newPk newSk signer csprng cgka = .ok (pcsKey, op) cgka') :
    ∃ mid, replayIfNeeded S cgka = .ok () mid ∧ Updated S newPk newSk csprng mid pcsKey op cgka' := by
  have result : After (update S newPk newSk signer csprng cgka)
      (fun made after => made = (pcsKey, op) ∧ after = cgka') (fun _ _ => False) := by
    rw [updates]
    exact ⟨rfl, rfl⟩
  rw [after_update] at result
  cases replays : replayIfNeeded S cgka with
  | error fault after =>
    rw [replays] at result
    exact result.elim
  | ok _ mid =>
    rw [replays, after_ok] at result
    refine ⟨mid, rfl, ?_⟩
    cases encrypts : BeeKem.encryptPath S.toCrypto mid.ownerId newPk (mid.ownerSks.insert newPk newSk) csprng
        mid.tree with
    | error fault after =>
      simp only [encrypts] at result
      exact result.elim
    | ok made tree =>
      simp only [encrypts, after_ok] at result
      unfold AfterCommit at result
      split at result
      · exact result.elim
      · obtain ⟨made', rfl⟩ := result
        obtain ⟨rfl, rfl⟩ := Prod.mk.inj made'
        exact ⟨⟨made.2, encrypts⟩, rfl, rfl, rfl, rfl, ExtTreeMap.getElem?_insert_self⟩

theorem Updated.addHeads (updated : Updated S newPk newSk csprng mid pcsKey op cgka') :
    cgka'.opsGraph.addHeads = mid.opsGraph.addHeads := by
  rw [updated.graph]
  exact if_neg (by rw [updated.isUpdate]; exact Bool.false_ne_true)

section Shaped

variable {h : Nat} (updated : Updated S newPk newSk csprng mid pcsKey op cgka') (shaped : mid.tree.Shaped h)

include updated shaped

/-- **The root has one key after an update**, and the graph one head. -/
theorem Updated.hasPcsKey_eq : cgka'.hasPcsKey = .ok (decide (mid.opsGraph.addHeads.size < 2)) := by
  obtain ⟨change, encrypts⟩ := updated.encrypts
  obtain ⟨-, root, -⟩ := shaped.encryptPath_root encrypts
  have single : cgka'.opsGraph.hasSingleHead = true := by
    rw [updated.graph]
    rfl
  unfold hasPcsKey
  rw [root, single, updated.addHeads]
  rfl

/-- **The owner derives the key of the update again.** -/
theorem Updated.pcsKeyFromTreeRoot_eq : pcsKeyFromTreeRoot S cgka' = .ok pcsKey cgka' := by
  obtain ⟨change, encrypts⟩ := updated.encrypts
  obtain ⟨shaped', root, index, idx, sk, present, encrypter, leaf, secret, rfl⟩ := shaped.encryptPath_root encrypts
  have within := shaped.index _ _ present
  have found : cgka'.tree.leafIndexForId mid.ownerId = .ok idx :=
    BeeKem.leafIndexForId_ok_iff.mpr (index ▸ present)
  have path : directPath (.leaf idx) cgka'.tree.treeSize = .ok (above h 0 idx) := by
    rw [shaped'.size]
    exact directPath_leaf_of_lt (shaped.low.trans (by decide)) within
  have derives : cgka'.tree.decryptTreeSecret S.toCrypto cgka'.ownerId cgka'.ownerSks
      = .ok (sk.ratchetNForward S.toCrypto h) cgka'.ownerSks := by
    unfold BeeKem.decryptTreeSecret
    rw [updated.owner, updated.sks]
    simp only [bind_ok_iff, liftRes_ok_iff]
    refine ⟨idx, _, ⟨found, rfl⟩, true, _, ⟨root, rfl⟩, ?_⟩
    simp only [if_true, bind_ok_iff, liftRes_ok_iff]
    refine ⟨_, _, ⟨BeeKem.leaf_ok_iff.mpr leaf, rfl⟩, ?_⟩
    simp only [encrypter, if_true, bind_ok_iff, get_ok_iff]
    refine ⟨_, _, ⟨rfl, rfl⟩, ?_⟩
    rw [secret]
    simp only [bind_ok_iff, liftRes_ok_iff]
    refine ⟨_, _, ⟨path, rfl⟩, ?_⟩
    rw [length_above]
    rfl
  unfold pcsKeyFromTreeRoot onSks
  show EStateM.bind _ _ cgka' = _
  simp only [EStateM.bind, get, getThe, MonadStateOf.get, EStateM.get, bind, derives]
  rfl

end Shaped

section Secret

variable {Cr : Type} [ContentRef Cr] {h : Nat} (updated : Updated S newPk newSk csprng mid pcsKey op cgka')
  (shaped : mid.tree.Shaped h) (contentRef : Cr) (content : List UInt8) (predRefs : List Cr) (signer : Signer)
  (csprng' : Rng)

include updated shaped

/-- **With fewer than two add heads the next content is encrypted under the key of the update.** -/
theorem Updated.newAppSecretFor_reuses (few : mid.opsGraph.addHeads.size < 2) :
    newAppSecretFor S contentRef content predRefs signer csprng' cgka' = .ok (pcsKey.deriveApplicationSecret S
      (Siv.new S.toCrypto (pcsKey.toSymmetricKey S) content cgka'.docId.asBytes) contentRef
      (ContentRef.hashAll predRefs) (S.hashOp op), none) cgka' := by
  have result : After (newAppSecretFor S contentRef content predRefs signer csprng' cgka')
      (fun made after => made = (pcsKey.deriveApplicationSecret S
        (Siv.new S.toCrypto (pcsKey.toSymmetricKey S) content cgka'.docId.asBytes) contentRef
        (ContentRef.hashAll predRefs) (S.hashOp op), none) ∧ after = cgka') (fun _ _ => False) := by
    rw [after_newAppSecretFor, updated.hasPcsKey_eq shaped, decide_eq_true few]
    simp only [updated.pcsKeyFromTreeRoot_eq shaped, after_ok]
    unfold AfterDerive
    rw [updated.key]
    exact ⟨rfl, rfl⟩
  cases returns : newAppSecretFor S contentRef content predRefs signer csprng' cgka' with
  | ok made after =>
    rw [returns] at result
    obtain ⟨rfl, rfl⟩ := result
    rfl
  | error fault after =>
    rw [returns] at result
    exact result.elim

/-- **With two add heads the next content rotates the key again.** -/
theorem Updated.newAppSecretFor_rotates (many : ¬ mid.opsGraph.addHeads.size < 2) :
    After (newAppSecretFor S contentRef content predRefs signer csprng' cgka') (fun made _ => made.2 ≠ none)
      (fun _ _ => True) := by
  rw [after_newAppSecretFor, updated.hasPcsKey_eq shaped, decide_eq_false many]
  cases Cgka.update S (csprng'.head.shareKey S.toCrypto) csprng'.head signer csprng'.tail cgka' with
  | error fault after => trivial
  | ok made after =>
    refine after_ok.mpr (insertPcsKey_keysOnly _ _ _ fun last _ => ?_)
    unfold AfterDerive
    split
    · trivial
    · exact Option.some_ne_none _

end Secret

end Cgka

namespace World

open Cgka

variable {S : Suite} {Cr : Type} [ContentRef Cr] {docId : TreeId} {ownerId : MemberId} {ownerPk : ShareKey}
  {founder signer signer' : Signer} {first cgka cgka' : Cgka} {w : World Cr}
  {admits : World Cr → Cgka → Call Cr → Prop} {newPk : ShareKey} {newSk : ShareSecretKey} {csprng : Rng}
  {pcsKey : PcsKey} {op : SignedOp}

/-- **The key after an update.** A replica of any run that has updated its key has a key to encrypt with, and encrypts
the next content under it without another operation, if and only if fewer than two adds are heads among the adds. -/
theorem Reachable.update_then_secret (created : Cgka.new S docId ownerId ownerPk founder = .ok first)
    (reached : Reachable S first admits w) (isReplica : cgka ∈ w.replicas)
    (updates : Cgka.update S newPk newSk signer csprng cgka = .ok (pcsKey, op) cgka') (contentRef : Cr)
    (content : List UInt8) (predRefs : List Cr) (csprng' : Rng) :
    (cgka'.hasPcsKey = .ok true ↔ cgka.opsGraph.addHeads.size < 2) ∧
      (newAppSecretFor S contentRef content predRefs signer' csprng' cgka' = .ok (pcsKey.deriveApplicationSecret S
          (Siv.new S.toCrypto (pcsKey.toSymmetricKey S) content cgka'.docId.asBytes) contentRef
          (ContentRef.hashAll predRefs) (S.hashOp op), none) cgka' ↔ cgka.opsGraph.addHeads.size < 2) := by
  obtain ⟨mid, replays, updated⟩ := update_ok updates
  have kept := (shaped_invariant S).replayIfNeeded ((reached.shaped created).replicas cgka isReplica)
    fun _ => Conditions.none_onReplay S cgka
  rw [replays] at kept
  obtain ⟨h, shaped⟩ := kept
  obtain ⟨graph, -⟩ := replayIfNeeded_frame replays
  rw [updated.hasPcsKey_eq shaped, ← graph]
  refine ⟨by simp, fun reuses => ?_, fun few =>
    updated.newAppSecretFor_reuses shaped contentRef content predRefs signer' csprng' few⟩
  by_contra many
  have rotates := updated.newAppSecretFor_rotates shaped contentRef content predRefs signer' csprng' many
  rw [reuses] at rotates
  exact rotates rfl

end World

namespace Sample

/-- An update of a replica, and whether it has a key afterwards. -/
def keyAfterUpdate (cgka : Cgka) : Option Bool :=
  match Cgka.update suite (key 0x50) (secret 0x50) (signer 6) (rng 0x60) cgka with
  | .ok _ cgka' => cgka'.hasPcsKey.toOption
  | .error _ _ => none

theorem of_keyAfterUpdate {cgka : Cgka} {has : Bool} (after : keyAfterUpdate cgka = some has) :
    ∃ pcsKey op cgka', Cgka.update suite (key 0x50) (secret 0x50) (signer 6) (rng 0x60) cgka = .ok (pcsKey, op) cgka' ∧
      cgka'.hasPcsKey = .ok has := by
  unfold keyAfterUpdate at after
  split at after
  · rename_i made cgka' updates
    refine ⟨made.1, made.2, cgka', updates, ?_⟩
    cases hasKey : cgka'.hasPcsKey with
    | ok value =>
      rw [hasKey] at after
      exact congrArg Except.ok (Option.some.inj after)
    | error fault => simp [hasKey, Except.toOption] at after
  · simp at after

theorem reachedUpdate (calls : List (Nat × Call Unit)) (has : Bool)
    (passes : (run (fun _ _ _ => true) calls).map
      (fun result => result.2.replicas[0]?.any fun cgka => keyAfterUpdate cgka = some has) = some true) :
    ∃ (first : Cgka) (w : World Unit) (cgka : Cgka), create = .ok first ∧
      World.Reachable suite first (fun _ _ _ => True) w ∧ cgka ∈ w.replicas ∧ ∃ pcsKey op cgka',
        Cgka.update suite (key 0x50) (secret 0x50) (signer 6) (rng 0x60) cgka = .ok (pcsKey, op) cgka' ∧
        cgka'.hasPcsKey = .ok has := by
  obtain ⟨first, w, created, reached, checked⟩ := reachedFreely calls
    (fun w => w.replicas[0]?.any fun cgka => keyAfterUpdate cgka = some has) passes
  obtain ⟨cgka, found, after⟩ := (Option.any_eq_true _ _).mp checked
  exact ⟨first, w, cgka, created, reached, List.mem_of_getElem? found, of_keyAfterUpdate (of_decide_eq_true after)⟩

/-- After one add, an update leaves a key that the next content is encrypted under. -/
theorem key_after_add_and_update :
    ∃ (first : Cgka) (w : World Unit) (cgka : Cgka), create = .ok first ∧
      World.Reachable suite first (fun _ _ _ => True) w ∧ cgka ∈ w.replicas ∧ ∃ pcsKey op cgka',
        Cgka.update suite (key 0x50) (secret 0x50) (signer 6) (rng 0x60) cgka = .ok (pcsKey, op) cgka' ∧
        ∃ made, Cgka.newAppSecretFor suite () [] [] (signer 7) (rng 0x70) cgka' = .ok (made, none) cgka' := by
  obtain ⟨first, w, cgka, created, reached, isReplica, pcsKey, op, cgka', updates, has⟩ :=
    reachedUpdate [(0, .add (member 2) (key 0x20) (signer 2))] true (by decide +kernel)
  obtain ⟨hasKey, reuses⟩ := reached.update_then_secret created isReplica updates () [] [] (rng 0x70)
  exact ⟨first, w, cgka, created, reached, isReplica, pcsKey, op, cgka', updates, _, reuses.mpr (hasKey.mp has)⟩

/-- **After two concurrent adds an update leaves no key**: the adds stay heads among the adds. -/
theorem no_key_after_concurrent_adds :
    ∃ (first : Cgka) (w : World Unit) (cgka : Cgka), create = .ok first ∧
      World.Reachable suite first (fun _ _ _ => True) w ∧ cgka ∈ w.replicas ∧ ∃ pcsKey op cgka',
        Cgka.update suite (key 0x50) (secret 0x50) (signer 6) (rng 0x60) cgka = .ok (pcsKey, op) cgka' ∧
        cgka'.hasPcsKey = .ok false :=
  reachedUpdate crossing false (by decide +kernel)

end Sample

end KeyhiveEval.Beekem
