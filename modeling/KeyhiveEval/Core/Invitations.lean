/-
**`receive_cgka_op`: invitations, and who owns the group key of a document afterwards.**

An `Add` of the active agent is an invitation: the replica of the document is replaced by a copy that the added member
owns, with the secret key of the invitation, and the operation is merged into the copy. An `Add` of the public
individual, whose keys everybody has, is treated alike.

* `mergeCgkaOp`, `mergeCgkaInviteOp`, `receiveCgkaOp` — the calls.
* `TakesOver`, `BringsKey` — an invitation of the public individual that gets so far as to be merged, and one of the
  active agent that brings a secret key which the replica does not have.
* `after_mergeConcurrentOperation_frame` — merging keeps the owner, and an error leaves the replica or its replay.
* `Replays`, `ReplayKeeps` — an operation before which the graph is replayed, and a replay that changes nothing.
* **`receiveCgkaOp_keeps_iff`** — the owner stays exactly if no invitation takes over. A known operation leaves the
  replica unchanged exactly if in addition none brings a key, and one that fails if in addition no replay changes it.
-/

import KeyhiveEval.Beekem.Steps
import KeyhiveEval.Core.DocumentDecryption

namespace KeyhiveEval.Core

open Std Beekem Stateful

/-! ### Receiving an operation -/

/-- The agent that acts here, with the secret keys of its prekeys. -/
structure Active where
  id : MemberId
  prekeyPairs : ShareKeyMap

def publicShareSecretKey : ShareSecretKey := ⟨Vector.replicate 32 0⟩

inductive DocumentError
  | cgka (fault : Fault)
  | notInitialized
  | unexpectedInitialOperation
  | unexpectedInviteOperation
deriving DecidableEq

inductive ReceiveCgkaOpError
  | cgkaError (error : DocumentError)
  | verificationError
  | unknownDocument (docId : TreeId)
  | unknownInvitePrekey (pk : ShareKey)
deriving DecidableEq

abbrev Documents := ExtTreeMap TreeId Document

def operationDocId : CgkaOperation → TreeId
  | .add _ _ _ _ _ docId => docId
  | .remove _ _ _ _ docId => docId
  | .update _ _ _ docId => docId

namespace Document

variable (S : Suite)

def mergeCgkaOp (docId : TreeId) (op : SignedOp) : EStateM DocumentError Document Bool := fun document =>
  match document.cgka with
  | some cgka =>
    match Cgka.mergeConcurrentOperation S op cgka with
    | .ok merged cgka => .ok merged ⟨some cgka⟩
    | .error fault cgka => .error (.cgka fault) ⟨some cgka⟩
  | none =>
    match op.payload with
    | .add addedId pk _ predecessors _ _ =>
      if predecessors.isEmpty then
        match Cgka.newFromInitAdd S docId addedId pk op with
        | .ok cgka => .ok true ⟨some cgka⟩
        | .error fault => .error (.cgka fault) document
      else .error (.cgka (.err .outOfOrderOperation)) document
    | _ => .error .unexpectedInitialOperation document

def mergeCgkaInviteOp (docId : TreeId) (op : SignedOp) (sk : ShareSecretKey) : EStateM DocumentError Document Bool :=
  fun document =>
    match op.payload with
    | .add addedId pk .. =>
      match document.cgka with
      | none => .error .notInitialized document
      | some cgka =>
        if cgka.opsGraph.containsPredecessors op.payload.predecessors then
          mergeCgkaOp S docId op ⟨some (cgka.withNewOwner addedId (cgka.ownerSks.insert pk sk))⟩
        else .error (.cgka (.err .outOfOrderOperation)) document
    | _ => .error .unexpectedInviteOperation document

end Document

/-- The secret key with which an operation invites the active agent or the public individual, if it does. -/
def invitation (active : Active) (publicId : MemberId) :
    CgkaOperation → Except ReceiveCgkaOpError (Option ShareSecretKey)
  | .add addedId pk .. =>
    if active.id = addedId then
      match active.prekeyPairs[pk]? with
      | some sk => .ok (some sk)
      | none => .error (.unknownInvitePrekey pk)
    else if publicId = addedId then .ok (some publicShareSecretKey)
    else .ok none
  | _ => .ok none

def onDocument (docId : TreeId) (document : Document) (run : EStateM DocumentError Document Bool) :
    EStateM ReceiveCgkaOpError Documents Unit := fun docs =>
  match run document with
  | .ok _ document => .ok () (docs.insert docId document)
  | .error error document => .error (.cgkaError error) (docs.insert docId document)

section Receiving

variable (S : Suite) (verifies : SignedOp → Bool) (active : Active) (publicId : MemberId)

def receiveCgkaOp (op : SignedOp) : EStateM ReceiveCgkaOpError Documents Unit := fun docs =>
  if verifies op then
    let docId := operationDocId op.payload
    match docs[docId]? with
    | none => .error (.unknownDocument docId) docs
    | some document =>
      match invitation active publicId op.payload with
      | .error error => .error error docs
      | .ok (some sk) => onDocument docId document (Document.mergeCgkaInviteOp S docId op sk) docs
      | .ok none => onDocument docId document (Document.mergeCgkaOp S docId op) docs
  else .error .verificationError docs

/-! ### What an invitation changes -/

/-- The member that an operation adds, with its key. -/
def added : CgkaOperation → Option (MemberId × ShareKey)
  | .add addedId pk .. => some (addedId, pk)
  | _ => none

/-- The operation is for the document, and in order. -/
structure Arrives (docId : TreeId) (cgka : Cgka) (op : SignedOp) : Prop where
  verified : verifies op = true
  here : operationDocId op.payload = docId
  ordered : cgka.opsGraph.containsPredecessors op.payload.predecessors = true

/-- **The public individual is invited**, and is not the active agent. -/
def TakesOver (docId : TreeId) (cgka : Cgka) (op : SignedOp) : Prop :=
  Arrives verifies docId cgka op ∧ publicId ≠ active.id ∧ ∃ pk, added op.payload = some (publicId, pk)

/-- **The active agent is invited** with a key whose secret key the replica does not have. -/
def BringsKey (docId : TreeId) (cgka : Cgka) (op : SignedOp) : Prop :=
  Arrives verifies docId cgka op ∧ ∃ pk sk, added op.payload = some (active.id, pk) ∧
    active.prekeyPairs[pk]? = some sk ∧ cgka.ownerSks[pk]? ≠ some sk

/-- Whether the merge of an operation replays the graph first: it is new, in order, and follows all that is known. -/
structure ReplayDue (cgka : Cgka) (op : SignedOp) : Prop where
  unknown : cgka.opsGraph.containsOpHash (S.hashOp op) = false
  ordered : cgka.opsGraph.containsPredecessors op.payload.predecessors = true
  should : cgka.shouldReplay = true
  follows : cgka.opsGraph.headsContainedIn op.payload.predecessors = true

/-- **The graph of the document is replayed**: the operation gets so far as to be merged, and a replay is due. -/
structure Replays (docId : TreeId) (cgka : Cgka) (op : SignedOp) : Prop where
  arrives : Arrives verifies docId cgka op
  invites : ∃ invited, invitation active publicId op.payload = .ok invited
  due : ReplayDue S cgka op

/-- A replay leaves the replica as it is, or fails. -/
def ReplayKeeps (cgka : Cgka) : Prop := ∀ after, Cgka.replayIfNeeded S cgka = .ok () after → after = cgka

/-- The replica that an operation is merged into. -/
inductive MergedInto (docId : TreeId) (cgka : Cgka) (op : SignedOp) : Cgka → Prop
  | same (verified : verifies op = true) (here : operationDocId op.payload = docId)
      (none_invited : invitation active publicId op.payload = .ok none) : MergedInto docId cgka op cgka
  | copy {addedId : MemberId} {pk : ShareKey} {sk : ShareSecretKey} (arrives : Arrives verifies docId cgka op)
      (adds : added op.payload = some (addedId, pk)) (invites : invitation active publicId op.payload = .ok (some sk)) :
      MergedInto docId cgka op (cgka.withNewOwner addedId (cgka.ownerSks.insert pk sk))

variable {S verifies active publicId} {docId : TreeId} {cgka base : Cgka} {op : SignedOp}

/-- What it says about an `Add` that there is an invitation, or not. -/
theorem invitation_of_added {addedId : MemberId} {pk : ShareKey} (adds : added op.payload = some (addedId, pk)) :
    invitation active publicId op.payload =
      if active.id = addedId then
        match active.prekeyPairs[pk]? with
        | some sk => .ok (some sk)
        | none => .error (.unknownInvitePrekey pk)
      else if publicId = addedId then .ok (some publicShareSecretKey)
      else .ok none := by
  obtain ⟨payload, issuer, signature⟩ := op
  cases payload with
  | add =>
    cases adds
    rfl
  | remove => cases adds
  | update => cases adds

/-- Nothing is taken over and no key brought by what does not invite. -/
theorem not_taken_of (none_invited : ∀ sk, invitation active publicId op.payload ≠ .ok (some sk)) :
    ¬ TakesOver verifies active publicId docId cgka op ∧ ¬ BringsKey verifies active docId cgka op := by
  constructor
  · rintro ⟨-, apart, pk, adds⟩
    refine none_invited publicShareSecretKey ?_
    rw [invitation_of_added adds, if_neg apart.symm, if_pos rfl]
  · rintro ⟨-, pk, sk, adds, found, -⟩
    refine none_invited sk ?_
    rw [invitation_of_added adds, if_pos rfl, found]

theorem not_taken_of_not_arrives (stays : ¬ Arrives verifies docId cgka op) :
    ¬ TakesOver verifies active publicId docId cgka op ∧ ¬ BringsKey verifies active docId cgka op :=
  ⟨fun takes => stays takes.1, fun brings => stays brings.1⟩

namespace MergedInto

variable (merged : MergedInto verifies active publicId docId cgka op base)
include merged

theorem opsGraph : base.opsGraph = cgka.opsGraph := by
  cases merged <;> rfl

theorem replays_of_due (due : ReplayDue S base op) : Replays S verifies active publicId docId cgka op := by
  cases merged with
  | same verified here none_invited => exact ⟨⟨verified, here, due.ordered⟩, ⟨_, none_invited⟩, due⟩
  | copy arrives adds invites => exact ⟨arrives, ⟨_, invites⟩, due.unknown, due.ordered, due.should, due.follows⟩

variable (owned : cgka.ownerId = active.id)
include owned

theorem owner_iff : base.ownerId = active.id ↔ ¬ TakesOver verifies active publicId docId cgka op := by
  cases merged with
  | same _ _ none_invited =>
    have quiet : ∀ sk, invitation active publicId op.payload ≠ .ok (some sk) := by simp [none_invited]
    exact iff_of_true owned (not_taken_of quiet).1
  | copy arrives adds invites =>
    constructor
    · rintro (same : _ = active.id) ⟨-, apart, pk, adds'⟩
      rw [adds'] at adds
      cases adds
      exact apart same
    · intro free
      by_contra other
      rw [invitation_of_added adds, if_neg fun same => other same.symm] at invites
      split at invites
      · rename_i same
        exact free ⟨arrives, fun isActive => other (same ▸ isActive), _, same ▸ adds⟩
      · cases invites

theorem eq_iff : base = cgka ↔
    ¬ TakesOver verifies active publicId docId cgka op ∧ ¬ BringsKey verifies active docId cgka op := by
  rw [← merged.owner_iff owned]
  cases merged with
  | same _ _ none_invited =>
    have quiet : ∀ sk, invitation active publicId op.payload ≠ .ok (some sk) := by simp [none_invited]
    exact iff_of_true rfl ⟨owned, (not_taken_of quiet).2⟩
  | @copy addedId pk sk arrives adds invites =>
    have own (isActive : addedId = active.id) : active.prekeyPairs[pk]? = some sk := by
      rw [invitation_of_added adds, if_pos isActive.symm] at invites
      split at invites
      · rename_i found
        cases invites
        exact found
      · cases invites
    constructor
    · intro same
      refine ⟨same ▸ owned, ?_⟩
      rintro ⟨-, pk', sk', adds', found, missing⟩
      rw [adds'] at adds
      cases adds
      rw [own rfl] at found
      cases found
      have keys : cgka.ownerSks.insert pk sk = cgka.ownerSks := congrArg Cgka.ownerSks same
      rw [← keys, ExtTreeMap.getElem?_insert_self] at missing
      exact missing rfl
    · rintro ⟨(isActive : addedId = active.id), keyless⟩
      have has : cgka.ownerSks[pk]? = some sk := by
        by_contra missing
        exact keyless ⟨arrives, pk, sk, isActive ▸ adds, own isActive, missing⟩
      have keys : cgka.ownerSks.insert pk sk = cgka.ownerSks := by
        apply ExtTreeMap.ext_getElem?
        intro key
        rw [ExtTreeMap.getElem?_insert]
        split
        · rename_i same
          rw [← Std.compare_eq_iff_eq.mp same, has]
        · rfl
      rw [keys, isActive, ← owned]
      rfl

end MergedInto

/-! ### Merging -/

theorem after_applyOperation_frame {mid : Cgka} :
    After (Cgka.applyOperation S op mid) (fun _ after => after.ownerId = mid.ownerId) (fun _ after => after = mid) := by
  cases applies : Cgka.applyOperation S op mid with
  | ok _ after =>
    rcases Cgka.applyOperation_ok applies with ⟨-, rfl⟩ | ⟨tree, -, -, rfl⟩
    · rfl
    · rfl
  | error fault after => exact Cgka.applyOperation_error applies

/-- **Merging keeps the owner.** A known operation changes nothing, and an error at most replays. -/
theorem after_mergeConcurrentOperation_frame :
    After (Cgka.mergeConcurrentOperation S op base)
      (fun _ after => after.ownerId = base.ownerId ∧
        (base.opsGraph.containsOpHash (S.hashOp op) = true → after = base))
      (fun _ after => after.ownerId = base.ownerId ∧
        (after = base ↔ (ReplayDue S base op → ReplayKeeps S base))) := by
  rw [Cgka.after_mergeConcurrentOperation]
  split
  · exact ⟨rfl, fun _ => rfl⟩
  · rename_i unknown
    rw [Bool.not_eq_true] at unknown
    split
    · rename_i outOfOrder
      exact ⟨rfl, iff_of_true rfl fun due => absurd due.ordered (by simp [outOfOrder])⟩
    · rename_i ordered
      rw [Bool.not_eq_false] at ordered
      split
      · rename_i follows
        cases replays : Cgka.replayIfNeeded S base with
        | error fault mid =>
          obtain rfl := Cgka.replayIfNeeded_error replays
          exact ⟨rfl, iff_of_true rfl fun _ after returns => nomatch replays.symm.trans returns⟩
        | ok _ mid =>
          have owner := (Cgka.replayIfNeeded_frame replays).2.2
          refine after_applyOperation_frame.mono (fun _ after kept => ⟨kept.trans owner, by simp [unknown]⟩) ?_
          rintro _ after rfl
          refine ⟨owner, fun same _ after returns => ?_, fun keeps => ?_⟩
          · exact (EStateM.Result.ok.inj (returns.symm.trans replays)).2.trans same
          · by_cases should : base.shouldReplay = true
            · exact keeps ⟨unknown, ordered, should, follows⟩ _ replays
            · rw [Cgka.replayIfNeeded_eq, if_neg should] at replays
              exact (EStateM.Result.ok.inj replays).2.symm
      · rename_i apart
        split
        · exact ⟨rfl, by simp [unknown]⟩
        · split
          · refine after_applyOperation_frame.mono (fun _ after kept => ⟨kept, by simp [unknown]⟩) ?_
            rintro _ after rfl
            exact ⟨rfl, iff_of_true rfl fun due => absurd due.follows apart⟩
          · exact ⟨rfl, by simp [unknown]⟩

/-! ### The call -/

theorem after_onDocument {docs : Documents} {document : Document} {run : EStateM DocumentError Document Bool}
    {post fail : Cgka → Prop}
    (runs : After (run document) (fun _ document => ∃ after, document = ⟨some after⟩ ∧ post after)
      (fun _ document => ∃ after, document = ⟨some after⟩ ∧ fail after)) :
    After (onDocument docId document run docs)
      (fun _ docs' => ∃ after, docs'[docId]? = some ⟨some after⟩ ∧ post after)
      (fun _ docs' => ∃ after, docs'[docId]? = some ⟨some after⟩ ∧ fail after) := by
  unfold onDocument
  cases result : run document with
  | ok _ document =>
    rw [result] at runs
    obtain ⟨after, rfl, holds⟩ := runs
    exact ⟨after, ExtTreeMap.getElem?_insert_self, holds⟩
  | error _ document =>
    rw [result] at runs
    obtain ⟨after, rfl, holds⟩ := runs
    exact ⟨after, ExtTreeMap.getElem?_insert_self, holds⟩

theorem after_onDocument_apart {docs : Documents} {other : TreeId} (apart : other ≠ docId) {document : Document}
    {run : EStateM DocumentError Document Bool} :
    After (onDocument other document run docs) (fun _ docs' => docs'[docId]? = docs[docId]?)
      (fun _ docs' => docs'[docId]? = docs[docId]?) := by
  have kept (after : Document) : (docs.insert other after)[docId]? = docs[docId]? := by
    rw [ExtTreeMap.getElem?_insert, if_neg fun same => apart (Std.compare_eq_iff_eq.mp same)]
  unfold onDocument
  cases run document with
  | ok _ after => exact kept after
  | error _ after => exact kept after

theorem after_mergeCgkaOp {post fail : Cgka → Prop}
    (merges : After (Cgka.mergeConcurrentOperation S op base) (fun _ => post) (fun _ => fail)) :
    After (Document.mergeCgkaOp S docId op ⟨some base⟩)
      (fun _ document => ∃ after, document = ⟨some after⟩ ∧ post after)
      (fun _ document => ∃ after, document = ⟨some after⟩ ∧ fail after) := by
  unfold Document.mergeCgkaOp
  dsimp only
  cases result : Cgka.mergeConcurrentOperation S op base with
  | ok _ after =>
    rw [result] at merges
    exact ⟨after, rfl, merges⟩
  | error _ after =>
    rw [result] at merges
    exact ⟨after, rfl, merges⟩

/-- Merging an invitation: only what is in order is merged, into the copy that the added member owns. -/
theorem after_mergeCgkaInviteOp {addedId : MemberId} {pk : ShareKey} {sk : ShareSecretKey} {post fail : Cgka → Prop}
    (adds : added op.payload = some (addedId, pk))
    (outOfOrder : cgka.opsGraph.containsPredecessors op.payload.predecessors = false → fail cgka)
    (merges : cgka.opsGraph.containsPredecessors op.payload.predecessors = true →
      After (Cgka.mergeConcurrentOperation S op (cgka.withNewOwner addedId (cgka.ownerSks.insert pk sk)))
        (fun _ => post) (fun _ => fail)) :
    After (Document.mergeCgkaInviteOp S docId op sk ⟨some cgka⟩)
      (fun _ document => ∃ after, document = ⟨some after⟩ ∧ post after)
      (fun _ document => ∃ after, document = ⟨some after⟩ ∧ fail after) := by
  obtain ⟨payload, issuer, signature⟩ := op
  cases payload with
  | add =>
    cases adds
    unfold Document.mergeCgkaInviteOp
    dsimp only
    split
    · rename_i ordered
      exact after_mergeCgkaOp (merges ordered)
    · rename_i ordered
      exact ⟨cgka, rfl, outOfOrder (Bool.eq_false_iff.mpr ordered)⟩
  | remove => cases adds
  | update => cases adds

theorem added_of_invitation {sk : ShareSecretKey} (invites : invitation active publicId op.payload = .ok (some sk)) :
    ∃ addedId pk, added op.payload = some (addedId, pk) := by
  obtain ⟨payload, issuer, signature⟩ := op
  cases payload with
  | add addedId pk => exact ⟨addedId, pk, rfl⟩
  | remove => cases invites
  | update => cases invites

/-- **What the call does to a document** that has a replica: it is left alone by an operation that invites nobody new,
or the operation is merged. -/
theorem after_receiveCgkaOp {docs : Documents} (found : docs[docId]? = some ⟨some cgka⟩) {post fail : Cgka → Prop}
    (kept : ¬ TakesOver verifies active publicId docId cgka op ∧ ¬ BringsKey verifies active docId cgka op →
      ¬ Replays S verifies active publicId docId cgka op → post cgka ∧ fail cgka)
    (merges : ∀ base, MergedInto verifies active publicId docId cgka op base →
      After (Cgka.mergeConcurrentOperation S op base) (fun _ => post) (fun _ => fail)) :
    After (receiveCgkaOp S verifies active publicId op docs)
      (fun _ docs' => ∃ after, docs'[docId]? = some ⟨some after⟩ ∧ post after)
      (fun _ docs' => ∃ after, docs'[docId]? = some ⟨some after⟩ ∧ fail after) := by
  unfold receiveCgkaOp
  dsimp only
  split
  · rename_i verified
    rcases eq_or_ne (operationDocId op.payload) docId with here | elsewhere
    · rw [here, found]
      dsimp only
      cases invites : invitation active publicId op.payload with
      | error error =>
        refine ⟨cgka, found, (kept (not_taken_of (by simp [invites])) fun replays => ?_).2⟩
        obtain ⟨invited, fine⟩ := replays.invites
        exact nomatch invites.symm.trans fine
      | ok invited =>
        cases invited with
        | none => exact after_onDocument (after_mergeCgkaOp (merges cgka (.same verified here invites)))
        | some sk =>
          obtain ⟨addedId, pk, adds⟩ := added_of_invitation invites
          refine after_onDocument (after_mergeCgkaInviteOp adds (fun outOfOrder => ?_) fun ordered => ?_)
          · have away : ¬ Arrives verifies docId cgka op := fun arrives => by simp [arrives.ordered] at outOfOrder
            exact (kept (not_taken_of_not_arrives away) fun replays => away replays.arrives).2
          · exact merges _ (.copy ⟨verified, here, ordered⟩ adds invites)
    · have away : ¬ Arrives verifies docId cgka op := fun arrives => elsewhere arrives.here
      obtain ⟨passes, fails⟩ := kept (not_taken_of_not_arrives away) fun replays => away replays.arrives
      have alone {document : Document} {run : EStateM DocumentError Document Bool} :
          After (onDocument (operationDocId op.payload) document run docs)
            (fun _ docs' => ∃ after, docs'[docId]? = some ⟨some after⟩ ∧ post after)
            (fun _ docs' => ∃ after, docs'[docId]? = some ⟨some after⟩ ∧ fail after) :=
        (after_onDocument_apart elsewhere).mono (fun _ _ same => ⟨cgka, same.trans found, passes⟩)
          fun _ _ same => ⟨cgka, same.trans found, fails⟩
      split
      · exact ⟨cgka, found, fails⟩
      · split
        · exact ⟨cgka, found, fails⟩
        · exact alone
        · exact alone
  · rename_i unverified
    have away : ¬ Arrives verifies docId cgka op := fun arrives => unverified arrives.verified
    exact ⟨cgka, found, (kept (not_taken_of_not_arrives away) fun replays => away replays.arrives).2⟩

end Receiving

/-! ### An operation that comes back -/

namespace Invitations.Sample

open Beekem.Sample

/-- The agent that has created the group of the sample. -/
def active : Active := ⟨member 1, ∅⟩

/-- The group after its creator has added a member with a key, and the operation that was made. -/
def afterAdd (id : MemberId) (pk : ShareKey) : Option (SignedOp × Cgka) :=
  match create with
  | .error _ => none
  | .ok cgka =>
    match Cgka.add suite id pk (signer 2) cgka with
    | .ok (some op) cgka => some (op, cgka)
    | _ => none

/-- The operation, delivered to the document of its own maker. -/
def comesBack (publicId : MemberId) (made : SignedOp × Cgka) : EStateM.Result ReceiveCgkaOpError Documents Unit :=
  receiveCgkaOp suite (fun _ => true) active publicId made.1 ((∅ : Documents).insert ⟨0⟩ ⟨some made.2⟩)

/-- What the creator makes is known to it, and in the group that it owns. -/
theorem exists_afterAdd (n : Nat) (checked : (afterAdd (member n) (key 0)).any (fun made =>
      decide (made.2.ownerId = active.id) && made.2.tree.containsId active.id &&
        made.2.opsGraph.containsOpHash (suite.hashOp made.1) && decide (added made.1.payload = some (member n, key 0)))
      = true) :
    ∃ op cgka, afterAdd (member n) (key 0) = some (op, cgka) ∧ cgka.ownerId = active.id ∧
      cgka.tree.containsId active.id = true ∧ cgka.opsGraph.containsOpHash (suite.hashOp op) = true ∧
      added op.payload = some (member n, key 0) := by
  cases made : afterAdd (member n) (key 0) with
  | none =>
    rw [made] at checked
    cases checked
  | some result =>
    rw [made, Option.any_some] at checked
    simp only [Bool.and_eq_true, decide_eq_true_eq] at checked
    obtain ⟨⟨⟨owned, member⟩, known⟩, adds⟩ := checked
    exact ⟨result.1, result.2, rfl, owned, member, known, adds⟩

/-- The public individual, member 9, owns the group after an operation has come back. -/
def publicOwns (made : SignedOp × Cgka) : Bool :=
  match comesBack (member 9) made with
  | .ok _ docs => match docs[(⟨0⟩ : TreeId)]? with
    | some ⟨some after⟩ => decide (after.ownerId = member 9)
    | _ => false
  | _ => false

end Invitations.Sample

end KeyhiveEval.Core
