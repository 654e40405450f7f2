/-
**What a failed call leaves behind.**

`add`, `remove` and `update` change the tree first, ask for a signature then, and extend the graph last. An
error before the signature leaves the tree as it was, or as the replay of the call has made it; an
error of the signer leaves the changed tree.

* `Request.Asks` — the operation that a call asks to be signed, and the tree at that moment.
* `Intact` — the graph, and the members, leaves and inner nodes, are those before the call or after its
  replay.
* **`failed_call_intact`** — a failed call leaves the group intact if the signer signs what it is asked
  to sign, and, but for requests that bring nothing new, only then.
* `refused_add_leaves_a_leaf` — a signer that refuses.
-/

import KeyhiveEval.Beekem.Steps
import KeyhiveEval.Beekem.Sample

namespace KeyhiveEval.Beekem

open Std Stateful

/-! ### Faults that are no errors -/

/-- The value is no error of the crate: it is there, or the call panics or never returns. -/
def NoErr {α : Type} (value : Res α) : Prop := ∀ error, value ≠ .error (.err error)

section NoErr

variable {α β : Type}

theorem noErr_ok (a : α) : NoErr (.ok a : Res α) := fun _ => nofun

theorem noErr_panic (message : String) : NoErr (.error (.panic message) : Res α) := fun _ => nofun

theorem NoErr.bind {m : Res α} {f : α → Res β} (first : NoErr m) (second : ∀ a, m = .ok a → NoErr (f a)) :
    NoErr (m >>= f) := by
  cases m with
  | ok a => exact second a rfl
  | error fault =>
    intro error same
    exact first error (by simpa [Bind.bind, Except.bind] using same)

end NoErr

namespace BeeKem

variable {𝒞 : Crypto} (tree : BeeKem)

theorem noErr_leaf (idx : Nat) : NoErr (tree.leaf idx) := by
  unfold leaf
  split
  · exact noErr_ok _
  · exact noErr_panic _

theorem noErr_innerNode (idx : Nat) : NoErr (tree.innerNode idx) := by
  unfold innerNode
  split
  · exact noErr_ok _
  · exact noErr_panic _

theorem noErr_nodeKey (store : SecretStore) : NoErr store.nodeKey := by
  unfold SecretStore.nodeKey
  split
  · exact noErr_ok _
  · exact noErr_panic _

theorem noErr_keysAt (idx : Nat) : NoErr (tree.keysAt idx) := by
  refine (tree.noErr_innerNode idx).bind fun found _ => ?_
  cases found with
  | none => exact noErr_ok _
  | some store => exact (noErr_nodeKey store).bind fun key _ => noErr_ok _

theorem noErr_nodeKeyForIndex {idx : TreeNodeIndex} (used : tree.shouldSkipForResolution idx = .ok false) :
    NoErr (tree.nodeKeyForIndex idx) := by
  cases idx with
  | leaf idx =>
    refine (tree.noErr_leaf idx).bind fun found read => ?_
    cases found with
    | none => simp [shouldSkipForResolution, read, bind, Except.bind, pure, Except.pure] at used
    | some node => exact noErr_ok _
  | inner idx =>
    refine (tree.noErr_innerNode idx).bind fun found read => ?_
    cases found with
    | none => simp [shouldSkipForResolution, read, bind, Except.bind, pure, Except.pure] at used
    | some node => exact noErr_nodeKey node

theorem noErr_shouldSkip (idx : TreeNodeIndex) : NoErr (tree.shouldSkipForResolution idx) := by
  cases idx with
  | leaf idx => exact (tree.noErr_leaf idx).bind fun _ _ => noErr_ok _
  | inner idx =>
    refine (tree.noErr_innerNode idx).bind fun found _ => ?_
    cases found <;> exact noErr_ok _

theorem appendResolution_used (fuel : Nat) (idx : TreeNodeIndex) (acc : List TreeNodeIndex) :
    NoErr (tree.appendResolution fuel idx acc) ∧
      ∀ found, tree.appendResolution fuel idx acc = .ok found →
        ∀ i ∈ found, i ∈ acc ∨ tree.shouldSkipForResolution i = .ok false := by
  induction fuel generalizing idx acc with
  | zero => exact ⟨fun _ => nofun, fun _ => nofun⟩
  | succ fuel ih =>
    unfold appendResolution
    cases skips : tree.shouldSkipForResolution idx with
    | error fault =>
      refine ⟨fun error same => tree.noErr_shouldSkip idx error ?_, fun _ same => ?_⟩
      · rw [skips]
        simpa [bind, Except.bind] using same
      · simp [bind, Except.bind] at same
    | ok skip =>
      cases skip with
      | false =>
        refine ⟨noErr_ok _, fun found same i member => ?_⟩
        obtain rfl := Except.ok.inj same
        rcases List.mem_append.mp member with old | new
        · exact .inl old
        · rw [List.mem_singleton.mp new]
          exact .inr skips
      | true =>
        cases idx with
        | leaf idx =>
          refine ⟨noErr_ok _, fun found same i member => .inl ?_⟩
          obtain rfl := Except.ok.inj same
          exact member
        | inner idx =>
          refine ⟨(ih (left idx) acc).1.bind fun acc' _ => (ih (right idx) acc').1, fun found same i member => ?_⟩
          replace same : (tree.appendResolution fuel (left idx) acc >>= fun acc' =>
            tree.appendResolution fuel (right idx) acc') = .ok found := same
          obtain ⟨acc', first, second⟩ := except_bind_ok_iff.mp same
          rcases (ih (right idx) acc').2 found second i member with old | used
          · exact (ih (left idx) acc).2 acc' first i old
          · exact .inr used

theorem noErr_encryptSecret (lawful : 𝒞.Lawful) (docId : TreeId) (secret sk : ShareSecretKey)
    (pairedPk : ShareKey) : NoErr (encryptSecret 𝒞 docId secret sk pairedPk) := by
  unfold encryptSecret
  have sealed := lawful.encrypt (sk.deriveSymmetricKey 𝒞 pairedPk).bytes
    (Siv.new 𝒞 (sk.deriveSymmetricKey 𝒞 pairedPk) secret.toBytes docId.asBytes).bytes separator secret
  rw [Option.isSome_iff_exists] at sealed
  obtain ⟨ciphertext, sealed⟩ := sealed
  simp only [SymmetricKey.tryEncrypt, sealed]
  exact noErr_ok _

theorem noErr_encryptForResolution (lawful : 𝒞.Lawful) (childIdx : TreeNodeIndex)
    (childSk newParentSk : ShareSecretKey) (idxs : List TreeNodeIndex)
    (used : ∀ i ∈ idxs, tree.shouldSkipForResolution i = .ok false) (paired : Bool)
    (secretMap : ExtTreeMap TreeNodeIndex EncryptedSecret) :
    NoErr (tree.encryptForResolution 𝒞 childIdx childSk newParentSk idxs paired secretMap) := by
  induction idxs generalizing paired secretMap with
  | nil => exact noErr_ok _
  | cons idx idxs ih =>
    refine (tree.noErr_nodeKeyForIndex (used idx List.mem_cons_self)).bind fun key _ => ?_
    cases key with
    | conflictKeys keys => exact noErr_panic _
    | shareKey nextPk =>
      exact (noErr_encryptSecret lawful _ _ _ _).bind fun _ _ =>
        ih (fun i member => used i (List.mem_cons_of_mem _ member)) _ _

theorem noErr_encryptNewSecretStoreForParent (lawful : 𝒞.Lawful) (childIdx : TreeNodeIndex)
    (childPk : ShareKey) (childSk : ShareSecretKey) (newParentPk : ShareKey)
    (newParentSk : ShareSecretKey) (csprng : Rng) :
    NoErr (tree.encryptNewSecretStoreForParent 𝒞 childIdx childPk childSk newParentPk newParentSk
      csprng) := by
  have collected := tree.appendResolution_used walkFuel (sibling childIdx) []
  refine collected.1.bind fun resolution found => ?_
  split
  · exact (noErr_encryptSecret lawful _ _ _ _).bind fun _ _ => noErr_ok _
  · refine (tree.noErr_encryptForResolution lawful childIdx childSk newParentSk resolution
      (fun i member => ?_) false ∅).bind fun _ _ => noErr_ok _
    exact (collected.2 resolution found i member).resolve_left List.not_mem_nil

/-- Once its loop has begun, encrypting a path returns no error. -/
theorem encryptPathLoop_noErr (lawful : 𝒞.Lawful) (fuel : Nat) (childIdx : TreeNodeIndex)
    (childPk : ShareKey) (childSk : ShareSecretKey) (newPath : PathChange) (csprng : Rng) :
    After (encryptPathLoop 𝒞 fuel childIdx childPk childSk newPath csprng tree) (fun _ _ => True)
      (fun fault _ => ∀ error, fault ≠ .err error) := by
  induction fuel generalizing tree childIdx childPk childSk newPath csprng with
  | zero => exact fun _ same => by cases same
  | succ fuel ih =>
    unfold encryptPathLoop
    simp only [after_bind, after_get, after_ite, after_pure, after_liftRes]
    refine ⟨fun _ => trivial, fun _ => ?_⟩
    cases keys : tree.keysAt (parent childIdx) with
    | error fault => exact fun error same => tree.noErr_keysAt _ error (by rw [keys, same])
    | ok removedHere =>
      simp only
      cases made : tree.encryptNewSecretStoreForParent 𝒞 childIdx childPk childSk
          ((childSk.ratchetForward 𝒞).shareKey 𝒞) (childSk.ratchetForward 𝒞) csprng with
      | error fault =>
        exact fun error same => tree.noErr_encryptNewSecretStoreForParent lawful _ _ _ _ _ _ error
          (by rw [made, same])
      | ok store =>
        simp only
        by_cases within : parent childIdx < tree.innerNodes.length
        · simp only [insertInnerNodeAt, if_pos within]
          exact ih _ _ _ _ _ _
        · simp only [insertInnerNodeAt, if_neg within]
          exact fun _ same => by cases same

/-- **An error of `encryptPath` comes before it writes anything.** -/
theorem Shaped.encryptPath_err {tree : BeeKem} {h : Nat} (shaped : tree.Shaped h) (lawful : 𝒞.Lawful)
    (id : MemberId) {pk : ShareKey} {sk : ShareSecretKey} {sks : ShareKeyMap} (csprng : Rng)
    (known : sks[pk]? = some sk) :
    After (encryptPath 𝒞 id pk sks csprng tree) (fun _ tree' => Rekeyed id pk tree tree')
      (fun fault tree' => ∀ error, fault = .err error → tree' = tree) := by
  unfold encryptPath
  simp only [after_bind, after_get, after_liftRes]
  cases lookup : tree.leafIndexForId id with
  | error fault => exact fun _ _ => trivial
  | ok leafIdx =>
    simp only
    rw [leafIndexForId_ok_iff] at lookup
    cases tree.nodeKeyForId id with
    | error fault => exact fun _ _ => trivial
    | ok key =>
      simp only [shaped.insertLeafAt_eq (shaped.index _ _ lookup), after_set, known, after_bind, after_modify,
        after_pure]
      have frame := encryptPathLoop_frame 𝒞 walkFuel (.leaf leafIdx) pk sk
        { leafId := id, leafIdx, leafPk := .shareKey pk, path := [], removedKeys := key.keys } csprng
        { tree with leaves := tree.leaves.set leafIdx (some ⟨id, .shareKey pk⟩) }
      have noErr := encryptPathLoop_noErr
        { tree with leaves := tree.leaves.set leafIdx (some ⟨id, .shareKey pk⟩) } lawful walkFuel
        (.leaf leafIdx) pk sk
        { leafId := id, leafIdx, leafPk := .shareKey pk, path := [], removedKeys := key.keys } csprng
      revert frame noErr
      cases encryptPathLoop 𝒞 walkFuel (.leaf leafIdx) pk sk
          { leafId := id, leafIdx, leafPk := .shareKey pk, path := [], removedKeys := key.keys } csprng
          { tree with leaves := tree.leaves.set leafIdx (some ⟨id, .shareKey pk⟩) } with
      | ok made tree' =>
        rintro ⟨nodes, length, rfl⟩ -
        exact ⟨leafIdx, nodes, _, lookup, length, rfl⟩
      | error fault tree' => exact fun _ noErr error same => absurd same (noErr error)

end BeeKem

/-! ### Requests -/

/-- A local operation that a replica is asked for. -/
inductive Request
  | add (id : MemberId) (pk : ShareKey)
  | remove (id : MemberId)
  | update (newPk : ShareKey) (newSk : ShareSecretKey) (csprng : Rng)

namespace Request

variable (S : Suite)

/-- The call of a request, with the operation that it makes. -/
def call (signer : Signer) : Request → CgkaM (Option SignedOp)
  | add id pk => Cgka.add S id pk signer
  | remove id => Cgka.remove S id signer
  | update newPk newSk csprng => do
    let (_, op) ← Cgka.update S newPk newSk signer csprng
    return some op

/-- **What a call asks to be signed**, and the tree that it has made by then. -/
inductive Asks (cgka : Cgka) : Request → CgkaOperation → BeeKem → Prop
  | add {id : MemberId} {pk : ShareKey} {mid : Cgka} {leafIndex : Nat} {tree : BeeKem}
      (absent : cgka.tree.containsId id = false) (replays : Cgka.replayIfNeeded S cgka = .ok () mid)
      (pushes : mid.tree.pushLeaf id (.shareKey pk) = .ok (leafIndex, tree)) :
      Asks cgka (.add id pk) (.add id pk leafIndex mid.opsGraph.cgkaOpHeads.toList
        mid.opsGraph.addHeads.toList mid.docId) tree
  | remove {id : MemberId} {mid : Cgka} {leafIdx : Nat} {removedKeys : List ShareKey} {tree : BeeKem}
      (present : cgka.tree.containsId id = true) (replays : Cgka.replayIfNeeded S cgka = .ok () mid)
      (several : mid.groupSize ≠ 1)
      (removes : mid.tree.removeId id = .ok ((leafIdx, removedKeys), tree)) :
      Asks cgka (.remove id) (.remove id leafIdx removedKeys mid.opsGraph.cgkaOpHeads.toList mid.docId) tree
  | update {newPk : ShareKey} {newSk : ShareSecretKey} {csprng : Rng} {mid : Cgka} {pcsKey : PcsKey}
      {newPath : PathChange} {tree : BeeKem} (replays : Cgka.replayIfNeeded S cgka = .ok () mid)
      (encrypts : BeeKem.encryptPath S.toCrypto mid.ownerId newPk (mid.ownerSks.insert newPk newSk)
        csprng mid.tree = .ok (pcsKey, newPath) tree) :
      Asks cgka (.update newPk newSk csprng)
        (.update mid.ownerId newPath mid.opsGraph.cgkaOpHeads.toList mid.docId) tree

def Signs (signer : Signer) (cgka : Cgka) (request : Request) : Prop :=
  ∀ payload tree, Asks S cgka request payload tree → (signer.trySign payload).isSome

end Request

/-- The members, the leaves and the inner nodes of two trees are the same. -/
structure SameNodes (tree tree' : BeeKem) : Prop where
  members : tree'.idToLeafIdx = tree.idToLeafIdx
  leaves : tree'.leaves = tree.leaves
  innerNodes : tree'.innerNodes = tree.innerNodes

/-- **The group is as it was** before a call, up to a replay that was completed. -/
def Intact (S : Suite) (cgka cgka' : Cgka) : Prop :=
  cgka'.opsGraph = cgka.opsGraph ∧
    (SameNodes cgka.tree cgka'.tree ∨
      ∃ mid, Cgka.replayIfNeeded S cgka = .ok () mid ∧ SameNodes mid.tree cgka'.tree)

section Failures

variable {S : Suite} {cgka : Cgka}

theorem intact_of_settled {cgka' : Cgka} (settled : Cgka.Settled S cgka cgka') : Intact S cgka cgka' := by
  rcases settled with keys | ⟨mid, replays, keys⟩
  · exact ⟨keys.opsGraph, .inl (keys.tree ▸ ⟨rfl, rfl, rfl⟩)⟩
  · exact ⟨keys.opsGraph.trans (Cgka.replayIfNeeded_frame replays).1,
      .inr ⟨mid, replays, keys.tree ▸ ⟨rfl, rfl, rfl⟩⟩⟩

/-- The call fails because the signer does not sign. -/
def Refused (S : Suite) (signer : Signer) (cgka : Cgka) (request : Request) (cgka' : Cgka) : Prop :=
  ∃ payload tree, Request.Asks S cgka request payload tree ∧ signer.trySign payload = none ∧
    cgka'.tree = tree

def Left (S : Suite) (signer : Signer) (cgka : Cgka) (request : Request) (fault : Fault) (cgka' : Cgka) :
    Prop :=
  ∀ error, fault = .err error → Cgka.Settled S cgka cgka' ∨ Refused S signer cgka request cgka'

variable {signer : Signer} {request : Request} {payload : CgkaOperation}

theorem left_of_commit {mid : Cgka}
    {post : SignedOp → Cgka → Prop} (asks : Request.Asks S cgka request payload mid.tree)
    (commits : ∀ op cgka', post op cgka') :
    Cgka.AfterCommit S signer payload mid post (Left S signer cgka request) := by
  unfold Cgka.AfterCommit
  cases signs : signer.trySign payload with
  | none => exact fun _ _ => .inr ⟨payload, mid.tree, asks, signs, rfl⟩
  | some signature => exact commits _ _

/-- **An error of a request** comes from the signer, or leaves the replica or its replay. -/
theorem failed_call (lawful : S.toCrypto.Lawful) (signer : Signer) (request : Request)
    (shaped : ∀ mid, Cgka.replayIfNeeded S cgka = .ok () mid → ∃ h, mid.tree.Shaped h) :
    After (request.call S signer cgka) (fun _ _ => True) (Left S signer cgka request) := by
  have replayed {post : Unit → Cgka → Prop}
      (goesOn : ∀ mid, Cgka.replayIfNeeded S cgka = .ok () mid → post () mid) :
      After (Cgka.replayIfNeeded S cgka) post (Left S signer cgka request) :=
    Cgka.after_replay goesOn fun _ _ _ => .inl (.inl (.refl cgka))
  cases request with
  | add id pk =>
    refine Cgka.after_add.mpr ⟨fun _ => trivial, fun absent => replayed fun mid replays => ?_⟩
    cases pushes : mid.tree.pushLeaf id (.shareKey pk) with
    | error fault => exact fun _ _ => .inl (.inr ⟨mid, replays, .refl _⟩)
    | ok pushed => exact left_of_commit (.add absent replays pushes) fun _ _ => trivial
  | remove id =>
    refine Cgka.after_remove.mpr ⟨fun _ => trivial, fun present => replayed fun mid replays => ?_⟩
    split
    · exact fun _ _ => .inl (.inr ⟨mid, replays, .refl _⟩)
    · rename_i several
      cases removes : mid.tree.removeId id with
      | error fault => exact fun _ _ => .inl (.inr ⟨mid, replays, .refl _⟩)
      | ok removed => exact left_of_commit (.remove present replays several removes) fun _ _ => trivial
  | update newPk newSk csprng =>
    rw [Request.call, after_bind]
    refine Cgka.after_update.mpr (replayed fun mid replays => ?_)
    obtain ⟨h, shapedMid⟩ := shaped mid replays
    have outcome := shapedMid.encryptPath_err lawful mid.ownerId csprng
      (show (mid.ownerSks.insert newPk newSk)[newPk]? = some newSk by simp)
    cases encrypts : BeeKem.encryptPath S.toCrypto mid.ownerId newPk (mid.ownerSks.insert newPk newSk)
        csprng mid.tree with
    | error fault tree =>
      rw [encrypts] at outcome
      simp only [encrypts]
      refine fun error same => .inl (.inr ⟨mid, replays, ?_⟩)
      rw [outcome error same]
      exact ⟨_, _, _, rfl⟩
    | ok made tree =>
      simp only [encrypts, after_ok]
      exact left_of_commit (.update replays encrypts) fun _ _ => trivial

/-- **A signer that does not sign** leaves the tree that the call has made. -/
theorem refused_call {tree : BeeKem}
    (asks : Request.Asks S cgka request payload tree) (refuses : signer.trySign payload = none) :
    After (request.call S signer cgka) (fun _ _ => False) (fun _ cgka' => cgka'.tree = tree) := by
  have committed {mid : Cgka} {post : SignedOp → Cgka → Prop} (here : mid.tree = tree) :
      Cgka.AfterCommit S signer payload mid post (fun _ cgka' => cgka'.tree = tree) := by
    unfold Cgka.AfterCommit
    rw [refuses]
    exact here
  cases asks with
  | add absent replays pushes =>
    refine Cgka.after_add.mpr ⟨fun present => by simp [absent] at present, fun _ => ?_⟩
    rw [replays, after_ok, pushes]
    exact committed rfl
  | remove present replays several removes =>
    refine Cgka.after_remove.mpr ⟨fun absent => by simp [present] at absent, fun _ => ?_⟩
    rw [replays, after_ok, if_neg several, removes]
    exact committed rfl
  | @update newPk newSk csprng mid pcsKey newPath tree replays encrypts =>
    rw [Request.call, after_bind]
    refine Cgka.after_update.mpr ?_
    rw [replays, after_ok]
    simp only [encrypts, after_ok]
    exact committed rfl

end Failures

namespace Request

/-- The request brings something new: the member to add is not there after the replay, and the owner's leaf
has another key than the new one. -/
def Fresh (S : Suite) (cgka : Cgka) : Request → Prop
  | add id _ => ∀ mid, Cgka.replayIfNeeded S cgka = .ok () mid → mid.tree.containsId id = false
  | remove _ => True
  | update newPk .. => cgka.tree.nodeKeyForId cgka.ownerId ≠ .ok (.shareKey newPk) ∧
      ∀ mid, Cgka.replayIfNeeded S cgka = .ok () mid →
        mid.tree.nodeKeyForId cgka.ownerId ≠ .ok (.shareKey newPk)

variable {S : Suite} {cgka : Cgka}

/-- **What a call asks to be signed has changed the tree.** -/
theorem Asks.changed {request : Request} {payload : CgkaOperation} {tree before : BeeKem}
    (asks : Asks S cgka request payload tree) (fresh : request.Fresh S cgka)
    (shaped : ∀ mid, Cgka.replayIfNeeded S cgka = .ok () mid → ∃ h, mid.tree.Shaped h)
    (old : before = cgka.tree ∨ ∃ mid, Cgka.replayIfNeeded S cgka = .ok () mid ∧ before = mid.tree) :
    ¬ SameNodes before tree := by
  intro same
  cases asks with
  | @add id pk mid leafIndex tree absent replays pushes =>
    obtain ⟨h, shapedMid⟩ := shaped mid replays
    obtain ⟨-, -, rfl⟩ := shapedMid.pushLeaf_ok pushes
    have present : before.containsId id = true := by
      rw [BeeKem.containsId, ← same.members]
      show (mid.tree.idToLeafIdx.insert id mid.tree.nextLeafIdx).contains id = true
      simp
    rcases old with rfl | ⟨mid', replays', rfl⟩
    · simp [absent] at present
    · simp [fresh mid' replays'] at present
  | @remove id mid leafIdx removedKeys tree present replays several removes =>
    obtain ⟨h, shapedMid⟩ := shaped mid replays
    obtain ⟨-, lookup, stop, nodes, -, -, -, rfl⟩ := shapedMid.removeId_ok removes
    have absent : before.containsId id = false := by
      rw [BeeKem.containsId, ← same.members]
      show (mid.tree.idToLeafIdx.erase id).contains id = false
      simp
    rcases old with rfl | ⟨mid', replays', rfl⟩
    · simp [absent] at present
    · obtain rfl : mid = mid' := by
        rw [replays] at replays'
        exact (EStateM.Result.ok.inj replays').2
      rw [BeeKem.containsId, ExtTreeMap.contains_eq_isSome_getElem?, lookup] at absent
      simp at absent
  | @update newPk newSk csprng mid pcsKey newPath tree replays encrypts =>
    obtain ⟨h, shapedMid⟩ := shaped mid replays
    have rekeyed := shapedMid.encryptPath_frame S.toCrypto mid.ownerId newPk (mid.ownerSks.insert newPk newSk)
      csprng
    rw [encrypts] at rekeyed
    obtain ⟨idx, nodes, encrypter, lookup, -, rfl⟩ := rekeyed
    have owner : mid.ownerId = cgka.ownerId := (Cgka.replayIfNeeded_frame replays).2.2
    have key : before.nodeKeyForId cgka.ownerId = .ok (.shareKey newPk) := by
      have here : before.idToLeafIdx[cgka.ownerId]? = some idx := by
        rw [← same.members, ← owner]
        exact lookup
      have leaf : before.leaves[idx]? = some (some ⟨mid.ownerId, .shareKey newPk⟩) := by
        rw [← same.leaves]
        exact List.getElem?_set_self (by rw [shapedMid.leaves]; exact shapedMid.index _ _ lookup)
      rw [BeeKem.nodeKeyForId, BeeKem.leafIndexForId_ok_iff.mpr here]
      show before.nodeKeyForIndex (.leaf idx) = _
      rw [BeeKem.nodeKeyForIndex, BeeKem.leaf_ok_iff.mpr leaf]
      rfl
    rcases old with rfl | ⟨mid', replays', rfl⟩
    · exact fresh.1 key
    · exact fresh.2 mid' replays' key

end Request

section Runs

variable {S : Suite} {Cr : Type} [ContentRef Cr] {docId : TreeId} {ownerId : MemberId}
  {ownerPk : ShareKey} {founder : Signer} {first : Cgka}
  {admits : World Cr → Cgka → Call Cr → Prop} {w : World Cr} {cgka : Cgka}

/-- **Failed local operations leave the group intact — as long as the signer signs.** In every state of a
run, a call that returns an error leaves the graph and the tree as they were before it, up to a
replay, if the signer signs what the call asks it to sign; and only then, unless the request
brings nothing new. -/
theorem failed_call_intact (lawful : S.toCrypto.Lawful)
    (created : Cgka.new S docId ownerId ownerPk founder = .ok first)
    (reached : World.Reachable S first admits w) (member : cgka ∈ w.replicas) (request : Request)
    (signer : Signer) {error : CgkaError} {cgka' : Cgka}
    (fails : request.call S signer cgka = .error (.err error) cgka') :
    (request.Signs S signer cgka → Intact S cgka cgka') ∧
      (request.Fresh S cgka → Intact S cgka cgka' → request.Signs S signer cgka) := by
  have shaped (mid : Cgka) (replays : Cgka.replayIfNeeded S cgka = .ok () mid) :
      ∃ h, mid.tree.Shaped h := by
    have kept := (shaped_invariant S).replayIfNeeded ((reached.shaped created).replicas cgka member)
      fun _ => Conditions.none_onReplay S cgka
    rw [replays] at kept
    exact kept
  constructor
  · intro signs
    have left := failed_call lawful signer request shaped
    rw [fails] at left
    rcases left error rfl with settled | ⟨payload, tree, asks, refuses, -⟩
    · exact intact_of_settled settled
    · have signed := signs payload tree asks
      rw [refuses] at signed
      exact absurd signed (by simp)
  · intro fresh intact payload tree asks
    by_contra unsigned
    have refused := refused_call asks (Option.not_isSome_iff_eq_none.mp unsigned)
    rw [fails] at refused
    obtain rfl : cgka'.tree = tree := refused
    rcases intact.2 with same | ⟨mid, replays, same⟩
    · exact asks.changed fresh shaped (.inl rfl) same
    · exact asks.changed fresh shaped (.inr ⟨mid, replays, rfl⟩) same

end Runs

/-! ### Samples -/

/-- Of members 1, 2 and 3 the first replica removes member 2 and the second one member 3, and the first receives that. -/
def concurrentRemoves : List (Nat × Call Unit) :=
  [(0, .add (Sample.member 2) (Sample.key 0x20) (Sample.signer 2)),
   (0, .add (Sample.member 3) (Sample.key 0x30) (Sample.signer 3)),
   (0, .withNewOwner (Sample.member 2) (Sample.secrets [0x20])),
   (0, .remove (Sample.member 2) (Sample.signer 4)),
   (1, .remove (Sample.member 3) (Sample.signer 5)),
   (0, .mergeConcurrentOperation 4)]

/-- The first replica still has member 3, and cannot remove it: after the replay member 1 is alone. -/
def lastMemberStays (w : World Unit) : Bool :=
  match w.replicas with
  | cgka :: _ => cgka.tree.memberCount == 2 && match Cgka.remove Sample.suite (Sample.member 3) (Sample.signer 6) cgka with
    | .error (.err .removeLastMember) cgka' => cgka'.tree.memberCount == 1
    | _ => false
  | _ => false

theorem intact_after_failed_remove :
    ∃ (first : Cgka) (w : World Unit) (cgka cgka' : Cgka), Sample.create = .ok first ∧
      World.Reachable Sample.suite first (fun _ _ _ => True) w ∧ cgka ∈ w.replicas ∧
      cgka.tree.memberCount = 2 ∧ cgka'.tree.memberCount = 1 ∧
      (Request.remove (Sample.member 3)).call Sample.suite (Sample.signer 6) cgka
        = .error (.err .removeLastMember) cgka' ∧ Intact Sample.suite cgka cgka' := by
  obtain ⟨first, w, created, reached, checked⟩ :=
    Sample.reachedFreely concurrentRemoves lastMemberStays (by decide +kernel)
  unfold lastMemberStays at checked
  split at checked
  · rename_i cgka rest replicas
    obtain ⟨two, checked⟩ := Bool.and_eq_true_iff.mp checked
    split at checked
    · rename_i cgka' fails
      have member : cgka ∈ w.replicas := by simp [replicas]
      exact ⟨first, w, cgka, cgka', created, reached, member, by simpa using two, by simpa using checked, fails,
        (failed_call_intact Sample.lawful created reached member (.remove (Sample.member 3))
          (Sample.signer 6) fails).1 fun _ _ _ => rfl⟩
    · simp at checked
  · simp at checked

def unwilling : Signer := ⟨⟨0⟩, fun _ => none⟩

/-- The first replica has member 2 in its tree after an add that was not signed. -/
def unsignedAddStays (w : World Unit) : Bool :=
  match w.replicas with
  | cgka :: _ => !cgka.shouldReplay && !cgka.tree.containsId (Sample.member 2) &&
    match Cgka.add Sample.suite (Sample.member 2) (Sample.key 0x20) unwilling cgka with
    | .error (.err .signingError) cgka' => cgka'.tree.containsId (Sample.member 2)
    | _ => false
  | _ => false

/-- **A refused add leaves a leaf:** the call returns an error, the graph knows nothing of member 2, and the
tree has them. -/
theorem refused_add_leaves_a_leaf :
    ∃ (first : Cgka) (w : World Unit) (cgka cgka' : Cgka), Sample.create = .ok first ∧
      World.Reachable Sample.suite first (fun _ _ _ => True) w ∧ cgka ∈ w.replicas ∧
      (Request.add (Sample.member 2) (Sample.key 0x20)).call Sample.suite unwilling cgka
        = .error (.err .signingError) cgka' ∧ ¬ Intact Sample.suite cgka cgka' := by
  obtain ⟨first, w, created, reached, checked⟩ := Sample.reachedFreely [] unsignedAddStays (by decide +kernel)
  unfold unsignedAddStays at checked
  split at checked
  · rename_i cgka rest replicas
    rw [Bool.and_eq_true, Bool.and_eq_true, Bool.not_eq_true', Bool.not_eq_true'] at checked
    obtain ⟨⟨current, absent⟩, checked⟩ := checked
    split at checked
    · rename_i cgka' fails
      refine ⟨first, w, cgka, cgka', created, reached, by simp [replicas], fails, fun intact => ?_⟩
      have different {tree : BeeKem} (same : SameNodes tree cgka'.tree)
          (absent : tree.containsId (Sample.member 2) = false) : False := by
        rw [BeeKem.containsId, ← same.members] at absent
        exact Bool.noConfusion (checked.symm.trans absent)
      rcases intact.2 with same | ⟨mid, replays, same⟩
      · exact different same absent
      · rw [Cgka.replayIfNeeded_eq, if_neg (by simp [current])] at replays
        obtain ⟨-, rfl⟩ := pure_ok_iff.mp replays
        exact different same absent
    · simp at checked
  · simp at checked

end KeyhiveEval.Beekem
