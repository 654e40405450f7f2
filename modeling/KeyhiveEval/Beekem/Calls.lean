/-
**What the calls of a replica do, step by step.**

Each method of `Cgka` is taken apart once, so that later proofs do not unfold it:

* `applyOperation_eq`, `replayOpsGraph_eq` — an operation is applied to the tree and added to the
  graph, or nothing happens; a replay takes over the tree of the rebuilt replica, or nothing happens.
* `after_add`, `after_remove`, `after_update`, `after_mergeConcurrentOperation`, `after_merge` — the
  conditions under which a call ends in given postconditions.
* `KeysOnly` — the calls that derive keys change the caches and the owner's secret keys only.
-/

import KeyhiveEval.Beekem.World
import KeyhiveEval.Beekem.KeyPaths

namespace KeyhiveEval.Beekem

open Std Stateful

namespace Cgka

variable {S : Suite}

/-! ### Running on a part of the replica -/

section Parts

variable {α : Type} {post : α → Cgka → Prop} {fail : Fault → Cgka → Prop} {cgka : Cgka}

theorem after_onTree {run : EStateM Fault BeeKem α} :
    After (onTree run cgka) post fail
      ↔ After (run cgka.tree) (fun a tree => post a { cgka with tree })
        (fun fault tree => fail fault { cgka with tree }) := by
  unfold onTree
  cases run cgka.tree <;> rfl

theorem after_onSks {run : EStateM Fault ShareKeyMap α} :
    After (onSks run cgka) post fail
      ↔ After (run cgka.ownerSks) (fun a ownerSks => post a { cgka with ownerSks })
        (fun fault ownerSks => fail fault { cgka with ownerSks }) := by
  unfold onSks
  cases run cgka.ownerSks <;> rfl

theorem after_runOn {other : Cgka} {run : CgkaM α} {post : α × Cgka → Cgka → Prop} :
    After (runOn other run cgka) post fail
      ↔ After (run other) (fun a other' => post (a, other') cgka) (fun fault _ => fail fault cgka) := by
  unfold runOn
  cases run other <;> rfl

end Parts

/-! ### Keys -/

/-- Only caches and secret keys differ. -/
def KeysOnly (cgka cgka' : Cgka) : Prop :=
  ∃ ownerSks pcsKeys pcsKeyOps, cgka' = { cgka with ownerSks, pcsKeys, pcsKeyOps }

theorem KeysOnly.refl (cgka : Cgka) : KeysOnly cgka cgka := ⟨_, _, _, rfl⟩

theorem KeysOnly.trans {first second third : Cgka} (once : KeysOnly first second)
    (again : KeysOnly second third) : KeysOnly first third := by
  obtain ⟨_, _, _, rfl⟩ := once
  obtain ⟨_, _, _, rfl⟩ := again
  exact ⟨_, _, _, rfl⟩

variable {cgka cgka' : Cgka}

theorem KeysOnly.tree (keys : KeysOnly cgka cgka') : cgka'.tree = cgka.tree := by
  obtain ⟨_, _, _, rfl⟩ := keys
  rfl

theorem KeysOnly.opsGraph (keys : KeysOnly cgka cgka') :
    cgka'.opsGraph = cgka.opsGraph := by
  obtain ⟨_, _, _, rfl⟩ := keys
  rfl

theorem pcsKeyFromTreeRoot_keysOnly (cgka : Cgka) :
    After (pcsKeyFromTreeRoot S cgka) (fun _ cgka' => KeysOnly cgka cgka')
      (fun _ cgka' => KeysOnly cgka cgka') := by
  unfold pcsKeyFromTreeRoot
  simp only [after_bind, after_get, after_onSks, after_pure]
  cases cgka.tree.decryptTreeSecret S.toCrypto cgka.ownerId cgka.ownerSks with
  | ok secret ownerSks => exact ⟨ownerSks, _, _, rfl⟩
  | error fault ownerSks => exact ⟨ownerSks, _, _, rfl⟩

theorem insertPcsKey_keysOnly (pcsKey : PcsKey) (opHash : OpDigest) (cgka : Cgka)
    {post : PUnit → Cgka → Prop} {fail : Fault → Cgka → Prop}
    (holds : ∀ cgka', KeysOnly cgka cgka' → post ⟨⟩ cgka') :
    After (insertPcsKey S pcsKey opHash cgka) post fail :=
  holds _ ⟨_, _, _, rfl⟩

/-! ### Applying -/

theorem applyOperation_eq (op : SignedOp) (cgka : Cgka) :
    applyOperation S op cgka
      = if cgka.opsGraph.containsOpHash (S.hashOp op) then .ok () cgka
        else
          match applyToTree cgka.tree op.payload with
          | .error fault => .error fault cgka
          | .ok tree => .ok () { cgka with
              tree, opsGraph := cgka.opsGraph.addOp S.hashOp op op.payload.predecessors } := by
  unfold applyOperation
  show EStateM.bind get _ cgka = _
  simp only [EStateM.bind, get, getThe, MonadStateOf.get, EStateM.get]
  split
  · rfl
  · show EStateM.bind (liftRes _) _ cgka = _
    unfold EStateM.bind liftRes
    cases applyToTree cgka.tree op.payload <;> rfl

variable {op : SignedOp}

theorem applyOperation_ok
    (applies : applyOperation S op cgka = .ok () cgka') :
    (cgka.opsGraph.containsOpHash (S.hashOp op) = true ∧ cgka' = cgka) ∨
      ∃ tree, cgka.opsGraph.containsOpHash (S.hashOp op) = false ∧
        applyToTree cgka.tree op.payload = .ok tree ∧
        cgka' = { cgka with
          tree, opsGraph := cgka.opsGraph.addOp S.hashOp op op.payload.predecessors } := by
  rw [applyOperation_eq] at applies
  split at applies
  · exact .inl ⟨by assumption, (EStateM.Result.ok.inj applies).2.symm⟩
  · rename_i unknown
    cases applied : applyToTree cgka.tree op.payload with
    | error fault =>
      rw [applied] at applies
      simp at applies
    | ok tree =>
      rw [applied] at applies
      exact .inr ⟨tree, Bool.eq_false_iff.mpr unknown, rfl,
        (EStateM.Result.ok.inj applies).2.symm⟩

/-- An operation that cannot be applied changes nothing. -/
theorem applyOperation_error {fault : Fault}
    (fails : applyOperation S op cgka = .error fault cgka') : cgka' = cgka := by
  rw [applyOperation_eq] at fails
  split at fails
  · simp at fails
  · split at fails
    · exact (EStateM.Result.error.inj fails).2.symm
    · simp at fails

/-- Whether the end of an epoch sorts leaves: it has concurrent operations, and a change of the
membership among them. -/
def NeedsSorting (epoch : CgkaEpoch) : Prop :=
  ¬ (epoch.length = 1 ∨ epoch.all (fun op => op.payload.isUpdate))

theorem applyEpoch_ok_iff {epoch : CgkaEpoch} :
    applyEpoch S epoch cgka = .ok () cgka' ↔
      ∃ applied, applyOperations S epoch cgka = .ok () applied ∧
        ((¬ NeedsSorting epoch ∧ cgka' = applied) ∨
          (NeedsSorting epoch ∧ ∃ tree,
            applied.tree.sortLeavesAndBlankPathsForConcurrentMembershipChanges (addedIds epoch)
              (removedIds epoch) = .ok tree ∧ cgka' = { applied with tree })) := by
  unfold applyEpoch NeedsSorting
  rw [seq_ok_iff]
  refine exists_congr fun applied => and_congr_right fun _ => ?_
  by_cases plain : epoch.length = 1 ∨ epoch.all fun op => op.payload.isUpdate
  · rw [if_pos plain, pure_ok_iff]
    constructor
    · rintro ⟨-, rfl⟩
      exact .inl ⟨not_not_intro plain, rfl⟩
    · rintro (⟨-, rfl⟩ | ⟨sorting, -⟩)
      · exact ⟨rfl, rfl⟩
      · exact absurd plain sorting
  · rw [if_neg plain]
    simp only [bind_ok_iff, get_ok_iff, liftRes_ok_iff, set_ok_iff]
    constructor
    · rintro ⟨_, _, ⟨rfl, rfl⟩, tree, _, ⟨sorts, rfl⟩, rfl⟩
      exact .inr ⟨plain, tree, sorts, rfl⟩
    · rintro (⟨sorting, -⟩ | ⟨-, tree, sorts, rfl⟩)
      · exact absurd plain sorting
      · exact ⟨_, _, ⟨rfl, rfl⟩, tree, _, ⟨sorts, rfl⟩, rfl⟩

/-! ### Replaying -/

def rebuilt (S : Suite) (cgka : Cgka) : Res Cgka := do
  let epochs ← cgka.opsGraph.topsortGraph
  let start ← rebuildStart S cgka
  match rebuildOn S epochs start with
  | .ok _ result => return result
  | .error fault _ => throw fault

def takeOver (cgka result : Cgka) : Cgka :=
  { cgka.updateCgkaFrom result with pendingOpsForStructuralChange := false }

theorem replayOpsGraph_eq (cgka : Cgka) :
    replayOpsGraph S cgka
      = match rebuilt S cgka with
        | .ok result => .ok () (cgka.takeOver result)
        | .error fault => .error fault cgka := by
  have start : replayOpsGraph S cgka
      = EStateM.bind (liftRes cgka.opsGraph.topsortGraph) (fun epochs =>
          EStateM.bind (rebuildCgka S epochs) fun result =>
            modify fun cgka => cgka.takeOver result) cgka := rfl
  have step : ∀ epochs, rebuildCgka S epochs cgka
      = EStateM.bind (liftRes (rebuildStart S cgka)) (fun start =>
          EStateM.bind (runOn start (rebuildOn S epochs)) fun result => pure result.2) cgka :=
    fun _ => rfl
  rw [start]
  unfold rebuilt EStateM.bind liftRes
  cases cgka.opsGraph.topsortGraph with
  | error fault => rfl
  | ok epochs =>
    simp only [step, bind, Except.bind]
    unfold EStateM.bind liftRes
    cases rebuildStart S cgka with
    | error fault => rfl
    | ok start =>
      simp only
      unfold runOn
      cases rebuildOn S epochs start <;> rfl

theorem replayIfNeeded_eq (cgka : Cgka) :
    replayIfNeeded S cgka = if cgka.shouldReplay then replayOpsGraph S cgka else .ok () cgka := by
  unfold replayIfNeeded
  show EStateM.bind get _ cgka = _
  simp only [EStateM.bind, get, getThe, MonadStateOf.get, EStateM.get]
  split <;> rfl

variable {epochs : List CgkaEpoch} {result : Cgka}

theorem rebuildOn_ok {start : Cgka}
    (rebuilds : rebuildOn S epochs start = .ok () result) :
    ∃ applied, applyEpochs S epochs start = .ok () applied ∧ KeysOnly applied result := by
  unfold rebuildOn at rebuilds
  obtain ⟨applied, applies, rest⟩ := seq_ok_iff.mp rebuilds
  refine ⟨applied, applies, ?_⟩
  obtain ⟨_, _, same, rest⟩ := bind_ok_iff.mp rest
  obtain ⟨rfl, rfl⟩ := get_ok_iff.mp same
  obtain ⟨has, _, lifted, rest⟩ := bind_ok_iff.mp rest
  obtain ⟨-, rfl⟩ := liftRes_ok_iff.mp lifted
  cases has with
  | false =>
    obtain ⟨-, rfl⟩ := pure_ok_iff.mp rest
    exact .refl _
  | true =>
    obtain ⟨pcsKey, derived, derives, rest⟩ := bind_ok_iff.mp rest
    obtain ⟨first, _, lifted, inserts⟩ := bind_ok_iff.mp rest
    obtain ⟨-, rfl⟩ := liftRes_ok_iff.mp lifted
    have keys := pcsKeyFromTreeRoot_keysOnly (S := S) applied
    rw [derives] at keys
    refine KeysOnly.trans keys ?_
    obtain rfl := (EStateM.Result.ok.inj inserts).2
    exact ⟨_, _, _, rfl⟩

theorem rebuilt_ok (rebuilds : rebuilt S cgka = .ok result) :
    ∃ epochs start applied, cgka.opsGraph.topsortGraph = .ok epochs ∧
      rebuildStart S cgka = .ok start ∧ applyEpochs S epochs start = .ok () applied ∧
      KeysOnly applied result := by
  unfold rebuilt at rebuilds
  obtain ⟨epochs, sorted, rebuilds⟩ := except_bind_ok_iff.mp rebuilds
  obtain ⟨start, starts, rebuilds⟩ := except_bind_ok_iff.mp rebuilds
  split at rebuilds
  · rename_i result' runs
    obtain rfl := except_pure_ok_iff.mp rebuilds
    obtain ⟨applied, applies, keys⟩ := rebuildOn_ok runs
    exact ⟨epochs, start, applied, sorted, starts, applies, keys⟩
  · simp [throw, throwThe, MonadExceptOf.throw] at rebuilds

theorem rebuildCgka_ok
    (rebuilds : rebuildCgka S epochs cgka = .ok result cgka') :
    ∃ start applied, rebuildStart S cgka = .ok start ∧
      applyEpochs S epochs start = .ok () applied ∧ KeysOnly applied result := by
  unfold rebuildCgka at rebuilds
  simp only [bind_ok_iff, get_ok_iff, liftRes_ok_iff, pure_ok_iff] at rebuilds
  obtain ⟨_, _, ⟨rfl, rfl⟩, start, _, ⟨starts, rfl⟩, ⟨_, other⟩, _, runs, rfl, -⟩ := rebuilds
  unfold runOn at runs
  split at runs
  · rename_i rebuilds
    obtain ⟨same, -⟩ := EStateM.Result.ok.inj runs
    obtain ⟨-, rfl⟩ := Prod.mk.inj same
    obtain ⟨applied, applies, keys⟩ := rebuildOn_ok rebuilds
    exact ⟨start, applied, starts, applies, keys⟩
  · cases runs

/-! ### Local calls -/

section Local

variable {cgka : Cgka} {fail : Fault → Cgka → Prop}

/-- Sign an operation and add it to the graph, in a postcondition. -/
def AfterCommit (S : Suite) (signer : Signer) (payload : CgkaOperation) (cgka : Cgka)
    (post : SignedOp → Cgka → Prop) (fail : Fault → Cgka → Prop) : Prop :=
  match signer.trySign payload with
  | none => fail (.err .signingError) cgka
  | some signature =>
    let op : SignedOp := ⟨payload, signer.verifyingKey, signature⟩
    post op { cgka with opsGraph := cgka.opsGraph.addLocalOp S.hashOp op }

variable {signer : Signer}

theorem after_commitOperation {payload : CgkaOperation}
    {post : SignedOp → Cgka → Prop} :
    After (commitOperation S signer payload cgka) post fail
      ↔ AfterCommit S signer payload cgka post fail := by
  unfold commitOperation AfterCommit Signer.trySignAsync
  simp only [after_bind, after_liftRes]
  cases signer.trySign payload <;> rfl

variable {post : Option SignedOp → Cgka → Prop} {id : MemberId}

theorem after_add {pk : ShareKey} :
    After (add S id pk signer cgka) post fail
      ↔ (cgka.tree.containsId id = true → post none cgka) ∧
        (cgka.tree.containsId id = false →
          After (replayIfNeeded S cgka) (fun _ cgka =>
            match cgka.tree.pushLeaf id (.shareKey pk) with
            | .error fault => fail fault cgka
            | .ok (leafIndex, tree) =>
              AfterCommit S signer
                (.add id pk leafIndex cgka.opsGraph.cgkaOpHeads.toList
                  cgka.opsGraph.addHeads.toList cgka.docId)
                { cgka with tree } (fun op => post (some op)) fail) fail) := by
  unfold add
  simp only [after_bind, after_get, after_ite, after_pure, Bool.not_eq_true, after_liftRes,
    after_set, after_commitOperation]
  refine and_congr_right fun _ => imp_congr_right fun _ => after_congr fun _ cgka' => ?_
  cases cgka'.tree.pushLeaf id (.shareKey pk) <;> rfl

theorem after_remove :
    After (remove S id signer cgka) post fail
      ↔ (cgka.tree.containsId id = false → post none cgka) ∧
        (cgka.tree.containsId id = true →
          After (replayIfNeeded S cgka) (fun _ cgka =>
            if cgka.groupSize = 1 then fail (.err .removeLastMember) cgka
            else
              match cgka.tree.removeId id with
              | .error fault => fail fault cgka
              | .ok ((leafIdx, removedKeys), tree) =>
                AfterCommit S signer
                  (.remove id leafIdx removedKeys cgka.opsGraph.cgkaOpHeads.toList cgka.docId)
                  { cgka with tree } (fun op => post (some op)) fail) fail) := by
  unfold remove
  simp only [after_bind, after_get, after_ite, after_pure, Bool.not_eq_true, after_liftRes,
    after_set, after_commitOperation, after_throw]
  rw [and_comm]
  refine and_congr_right fun _ => imp_congr_right fun _ => after_congr fun _ cgka' => ?_
  by_cases single : cgka'.groupSize = 1
  · simp [single]
  · simp only [single, false_implies, not_false_eq_true, true_implies, true_and, if_false]
    cases cgka'.tree.removeId id <;> rfl

theorem after_update {newPk : ShareKey} {newSk : ShareSecretKey} {csprng : Rng}
    {post : PcsKey × SignedOp → Cgka → Prop} :
    After (update S newPk newSk signer csprng cgka) post fail
      ↔ After (replayIfNeeded S cgka) (fun _ cgka =>
          let cgka := { cgka with ownerSks := cgka.ownerSks.insert newPk newSk }
          After (BeeKem.encryptPath S.toCrypto cgka.ownerId newPk cgka.ownerSks csprng cgka.tree)
            (fun made tree =>
              AfterCommit S signer
                (.update cgka.ownerId made.2 cgka.opsGraph.cgkaOpHeads.toList cgka.docId)
                { cgka with tree }
                (fun op cgka => After (insertPcsKey S made.1 (S.hashOp op) cgka)
                  (fun _ => post (made.1, op)) fail) fail)
            (fun fault tree => fail fault { cgka with tree })) fail := by
  unfold update
  simp only [after_bind, after_modify, after_get, after_onTree, after_commitOperation, after_pure]

end Local

/-! ### Operations and forks of other replicas -/

section Remote

variable {cgka : Cgka} {fail : Fault → Cgka → Prop}

theorem after_mergeConcurrentOperation {op : SignedOp} {post : Bool → Cgka → Prop} :
    After (mergeConcurrentOperation S op cgka) post fail
      ↔ if cgka.opsGraph.containsOpHash (S.hashOp op) then post false cgka
        else if cgka.opsGraph.containsPredecessors op.payload.predecessors = false then
          fail (.err .outOfOrderOperation) cgka
        else if cgka.opsGraph.headsContainedIn op.payload.predecessors then
          After (replayIfNeeded S cgka)
            (fun _ cgka => After (applyOperation S op cgka) (fun _ => post true) fail) fail
        else if cgka.pendingOpsForStructuralChange then
          post true { cgka with
            opsGraph := cgka.opsGraph.addOp S.hashOp op op.payload.predecessors }
        else if op.payload.isUpdate then
          After (applyOperation S op cgka) (fun _ => post true) fail
        else post true { cgka with
          opsGraph := cgka.opsGraph.addOp S.hashOp op op.payload.predecessors
          pendingOpsForStructuralChange := true } := by
  unfold mergeConcurrentOperation
  simp only [after_bind, after_get]
  split
  · rfl
  · simp only [Bool.not_eq_true']
    split
    · rfl
    · split
      · simp only [after_bind, after_pure]
      · split
        · rfl
        · split
          · simp only [after_bind, after_pure]
          · rfl

def withFork (cgka fork : Cgka) : Cgka :=
  { cgka with
    ownerSks := cgka.ownerSks.extend fork.ownerSks
    opsGraph := cgka.opsGraph.merge fork.opsGraph
    pcsKeys := fork.pcsKeys.foldl (fun all digest key => all.insertIfNew digest key) cgka.pcsKeys }

/-- An error of the replay is a panic of the merge. -/
def renamed : EStateM.Result Fault Cgka Unit → EStateM.Result Fault Cgka Unit
  | .error (.err _) cgka => .error (.panic "two valid graphs should always merge causal consistency") cgka
  | result => result

theorem after_merge {fork : Cgka} {post : Unit → Cgka → Prop} :
    After (merge S fork cgka) post fail
      ↔ match rebuilt S (cgka.withFork fork) with
        | .ok result => post () ((cgka.withFork fork).takeOver result)
        | .error (.err _) =>
          fail (.panic "two valid graphs should always merge causal consistency")
            (cgka.withFork fork)
        | .error fault => fail fault (cgka.withFork fork) := by
  have replayed : merge S fork cgka = renamed (replayOpsGraph S (cgka.withFork fork)) := rfl
  rw [replayed, replayOpsGraph_eq]
  cases rebuilt S (cgka.withFork fork) with
  | ok result => rfl
  | error fault => cases fault <;> rfl

end Remote

/-! ### Keys of contents -/

theorem derivePcsKeyForOp_keysOnly (opHash : OpDigest) (cgka : Cgka) :
    After (derivePcsKeyForOp S opHash cgka) (fun _ cgka' => KeysOnly cgka cgka')
      (fun _ cgka' => KeysOnly cgka cgka') := by
  unfold derivePcsKeyForOp
  simp only [after_bind, after_get, after_ite, after_throw, after_liftRes, after_runOn, after_pure]
  refine ⟨fun _ => .refl _, fun _ => ?_⟩
  cases cgka.opsGraph.topsortForHeads ((∅ : ExtTreeSet OpDigest).insert opHash) with
  | error fault => exact .refl _
  | ok epochs =>
    cases rebuildStart S cgka with
    | error fault => exact .refl _
    | ok start =>
      simp only
      cases applyEpochs S epochs start with
      | error fault applied => exact .refl _
      | ok _ applied =>
        show After (pcsKeyFromTreeRoot S applied) _ _
        cases pcsKeyFromTreeRoot S applied with
        | error fault derived => exact .refl _
        | ok pcsKey derived =>
          cases lastFirst epochs with
          | error fault => exact .refl _
          | ok first =>
            show KeysOnly _ _
            exact ⟨_, _, _, rfl⟩

theorem pcsKeyFromHashes_keysOnly (pcsKeyHash : PcsDigest) (updateOpHash : OpDigest) (cgka : Cgka) :
    After (pcsKeyFromHashes S pcsKeyHash updateOpHash cgka) (fun _ cgka' => KeysOnly cgka cgka')
      (fun _ cgka' => KeysOnly cgka cgka') := by
  unfold pcsKeyFromHashes
  simp only [after_bind, after_get]
  cases cgka.pcsKeys[pcsKeyHash]? with
  | some pcsKey => exact .refl _
  | none =>
    simp only [after_bind, after_liftRes]
    cases cgka.hasPcsKey with
    | error fault => exact .refl _
    | ok has =>
      cases has with
      | false => exact derivePcsKeyForOp_keysOnly updateOpHash cgka
      | true =>
        simp only [if_true, after_bind]
        refine (pcsKeyFromTreeRoot_keysOnly cgka).mono (fun pcsKey derived keys => ?_)
          fun _ _ keys => keys
        simp only [after_ite, after_pure]
        refine ⟨fun _ => keys, fun _ => ?_⟩
        exact (derivePcsKeyForOp_keysOnly updateOpHash derived).mono
          (fun _ _ more => keys.trans more) fun _ _ more => keys.trans more

section Content

variable {Cr : Type} [ContentRef Cr]

theorem decryptionKeyFor_keysOnly (encrypted : EncryptedContent Cr) (cgka : Cgka) :
    After (decryptionKeyFor S encrypted cgka) (fun _ cgka' => KeysOnly cgka cgka')
      (fun _ cgka' => KeysOnly cgka cgka') := by
  unfold decryptionKeyFor
  simp only [after_bind, after_get]
  refine (pcsKeyFromHashes_keysOnly _ _ cgka).mono (fun pcsKey derived keys => ?_)
    fun _ _ keys => keys
  simp only [after_ite, after_bind, after_pure]
  exact ⟨fun _ => insertPcsKey_keysOnly _ _ _ fun _ more => keys.trans more, fun _ => keys⟩

/-- Deriving the secret of a content from the current key, in a postcondition. -/
def AfterDerive (S : Suite) (docId : TreeId) (contentRef : Cr) (content : List UInt8)
    (predRefs : List Cr) (pcsKey : PcsKey) (op : Option SignedOp) (cgka : Cgka)
    (post : ApplicationSecret Cr × Option SignedOp → Cgka → Prop) (fail : Fault → Cgka → Prop) :
    Prop :=
  match cgka.pcsKeyOps[S.hashPcsKey pcsKey]? with
  | none => fail (.panic "PcsKey hash should be present becuase we derived it above") cgka
  | some opHash =>
    post (pcsKey.deriveApplicationSecret S
      (Siv.new S.toCrypto (pcsKey.toSymmetricKey S) content docId.asBytes) contentRef
      (ContentRef.hashAll predRefs) opHash, op) cgka

theorem after_newAppSecretFor {contentRef : Cr} {content : List UInt8} {predRefs : List Cr}
    {signer : Signer} {csprng : Rng} {cgka : Cgka}
    {post : ApplicationSecret Cr × Option SignedOp → Cgka → Prop} {fail : Fault → Cgka → Prop} :
    After (newAppSecretFor S contentRef content predRefs signer csprng cgka) post fail
      ↔ match cgka.hasPcsKey with
        | .error fault => fail fault cgka
        | .ok true => After (pcsKeyFromTreeRoot S cgka) (fun pcsKey cgka' =>
            AfterDerive S cgka.docId contentRef content predRefs pcsKey none cgka' post fail) fail
        | .ok false =>
          After (update S (csprng.head.shareKey S.toCrypto) csprng.head signer csprng.tail cgka)
            (fun made cgka' => After (insertPcsKey S made.1 (S.hashOp made.2) cgka')
              (fun _ cgka' => AfterDerive S cgka.docId contentRef content predRefs made.1
                (some made.2) cgka' post fail) fail) fail := by
  have finish : ∀ (pcsKey : PcsKey) (op : Option SignedOp) (cgka' : Cgka),
      After ((match cgka'.pcsKeyOps[S.hashPcsKey pcsKey]? with
        | none => throw (.panic "PcsKey hash should be present becuase we derived it above")
        | some opHash => pure (pcsKey.deriveApplicationSecret S
            (Siv.new S.toCrypto (pcsKey.toSymmetricKey S) content cgka.docId.asBytes) contentRef
            (ContentRef.hashAll predRefs) opHash, op) : CgkaM _) cgka') post fail
      ↔ AfterDerive S cgka.docId contentRef content predRefs pcsKey op cgka' post fail := by
    intro pcsKey op cgka'
    unfold AfterDerive
    cases cgka'.pcsKeyOps[S.hashPcsKey pcsKey]? <;> rfl
  unfold newAppSecretFor
  simp only [after_bind, after_get, after_liftRes]
  cases cgka.hasPcsKey with
  | error fault => rfl
  | ok has =>
    cases has with
    | true =>
      simp only [if_true, after_bind, after_pure]
      exact after_congr fun pcsKey cgka' => finish pcsKey none cgka'
    | false =>
      simp only [Bool.false_eq_true, if_false, after_bind, after_pure]
      exact after_congr fun made _ => after_congr fun _ cgka' => finish made.1 (some made.2) cgka'

end Content

end Cgka

end KeyhiveEval.Beekem
