/-
**Which secrets a client still has.**

The PPRF of a message holds one value for every member other than the sender. When a member acknowledges the message,
its value is used to move its chain and is meant to be deleted.

* `Run` — a client makes, processes and rejects messages; the log of what it has processed, with the seeds of the
  PPRFs (`pprfSeed`).
* `Run.stored` — what the stored PPRFs hold: the one under the id of a message is never changed again.
* `erased_iff` — **a used value is gone** if the member is the sender of the message, or has acknowledged an add of
  someone else; after any other acknowledgement it is still there, because the punctured PPRF is stored under the id
  of the acknowledgement.
-/

import KeyhiveEval.Dcgka.Secrets

set_option linter.unusedSectionVars false

namespace KeyhiveEval.Dcgka.FullDcgka

open Stateful

variable {Id Bytes Channel Cipher : Type} [LinearOrder Id] (crypto : Crypto Id Bytes Channel Cipher)

/-- A client: its state, and the object that the state refers to. -/
structure Client (Id Bytes Channel : Type) where
  state : State Id Bytes Channel
  dgm : StrongRemoveDgm Id

/-- A message that was processed, with the seed of the PPRF that the client has made of it. -/
structure Processed (Id Bytes Cipher : Type) where
  message : FullDcgkaMessage Id Cipher
  sender : Id
  causalInfo : Timestamp Id
  seed : Option Bytes

/-- The seed that a message carries for a client. -/
def State.seedFor (state : State Id Bytes Channel) (dgm : StrongRemoveDgm Id) (sender : Id) (ciphertexts : List Cipher) :
    Option Bytes :=
  match state.receiveSeed crypto ((dgm.queryView sender).erase sender) sender ciphertexts with
  | .ok (_, seed) => seed
  | .error _ => none

/-- **The seed of the PPRF of a message**, at a client that processes it; `dgm` is the group as the message leaves
it. -/
def pprfSeed (state : State Id Bytes Channel) (dgm : StrongRemoveDgm Id) (message : FullDcgkaMessage Id Cipher)
    (sender : Id) : Option Bytes :=
  match message with
  | .create ciphertexts _ => state.seedFor crypto dgm sender ciphertexts
  | .update ciphertexts => state.seedFor crypto dgm sender ciphertexts
  | .remove ciphertexts _ => state.seedFor crypto dgm sender ciphertexts
  | .ackWithUpdate _ ciphertexts => state.seedFor crypto dgm sender ciphertexts
  | .add _ =>
    if state.id ∈ dgm.queryView sender then some (crypto.hashUpdate (state.prfPrngs sender) crypto.welcome) else none
  | .welcome _ prfForAdded =>
    match state.decryptFrom crypto sender prfForAdded with
    | .ok (_, chainKey) => some (crypto.hashUpdate (some chainKey) crypto.welcome)
    | .error _ => none
  | _ => none

/-- A client makes a message, or asks what to acknowledge. -/
inductive Makes (client : Client Id Bytes Channel) : State Id Bytes Channel → Prop
  | create {members : List Id} {secret : Bytes} {state' : State Id Bytes Channel} {message : FullDcgkaMessage Id Cipher} :
      FullDcgka.create crypto client.state members secret = .ok (state', message) → Makes client state'
  | update {secret : Bytes} {state' : State Id Bytes Channel} {message : FullDcgkaMessage Id Cipher} :
      FullDcgka.update crypto client.dgm client.state secret = .ok (state', message) → Makes client state'
  | remove {removed : Id} {secret : Bytes} {state' : State Id Bytes Channel} {message : FullDcgkaMessage Id Cipher} :
      FullDcgka.remove crypto client.dgm client.state removed secret = .ok (state', message) → Makes client state'
  | add {added : Id} {state' : State Id Bytes Channel} {welcome message : FullDcgkaMessage Id Cipher} :
      FullDcgka.add crypto client.dgm client.state added = .ok (state', welcome, message) → Makes client state'
  | getOrdererInput : Makes client (FullDcgka.getOrdererInput client.state).1

/-- A message is acknowledged through its PPRF. -/
def acksByPprf : FullDcgkaMessage Id Cipher → Bool
  | .ack _ => true
  | .ackWithUpdate _ _ => true
  | _ => false

/-- A message that has added someone other than the given user. -/
def AddsOther (id : Id) (entry : Processed Id Bytes Cipher) (user : Id) : Prop :=
  (∃ added, entry.message = .add added ∧ added ≠ user) ∨
    ∃ copy prfForAdded, entry.message = .welcome copy prfForAdded ∧ id ≠ user

/-- An honest client adds another user, and answers the add of a third one with its chain key. -/
structure Meant (client : Client Id Bytes Channel) (log : List (Processed Id Bytes Cipher))
    (message : FullDcgkaMessage Id Cipher) (sender : Id) (causalInfo : Timestamp Id) : Prop where
  add : ∀ added, message = .add added → added ≠ sender
  welcome : ∀ copy prfForAdded, message = .welcome copy prfForAdded → client.state.id ≠ sender
  addAck : ∀ prfForAdded, message = .addAck prfForAdded → ∃ entry ∈ log,
    causalInfo.ackedMessageId = some entry.causalInfo.messageId ∧ AddsOther client.state.id entry sender

/-- **A run of a client.** Every message has an id of its own. A client keeps its state if a message is rejected or
removes the client, but not what the message has done to the group. -/
inductive Run : Client Id Bytes Channel → List (Processed Id Bytes Cipher) → Prop
  | start (id : Id) : Run ⟨State.new id, StrongRemoveDgm.empty id⟩ []
  | makes {client : Client Id Bytes Channel} {log : List (Processed Id Bytes Cipher)} {state' : State Id Bytes Channel} :
      Run client log → Makes crypto client state' → Run ⟨state', client.dgm⟩ log
  | processed {client : Client Id Bytes Channel} {log : List (Processed Id Bytes Cipher)}
      {message : FullDcgkaMessage Id Cipher} {sender : Id} {causalInfo : Timestamp Id} {secret : Bytes}
      {returned : ProcessReturn Id Bytes Channel Cipher} {dgm' : StrongRemoveDgm Id} : Run client log →
      process crypto client.state message sender causalInfo secret client.dgm = .ok returned dgm' →
      client.state.id ∉ returned.removed → (∀ entry ∈ log, entry.causalInfo.messageId ≠ causalInfo.messageId) →
      Meant client log message sender causalInfo →
      Run ⟨returned.state, returned.newDgm.getD dgm'⟩ (log ++ [⟨message, sender, causalInfo,
        pprfSeed crypto client.state (returned.newDgm.getD dgm') message sender⟩])
  | removed {client : Client Id Bytes Channel} {log : List (Processed Id Bytes Cipher)}
      {message : FullDcgkaMessage Id Cipher} {sender : Id} {causalInfo : Timestamp Id} {secret : Bytes}
      {returned : ProcessReturn Id Bytes Channel Cipher} {dgm' : StrongRemoveDgm Id} : Run client log →
      process crypto client.state message sender causalInfo secret client.dgm = .ok returned dgm' →
      client.state.id ∈ returned.removed → Run ⟨client.state, dgm'⟩ log
  | rejected {client : Client Id Bytes Channel} {log : List (Processed Id Bytes Cipher)}
      {message : FullDcgkaMessage Id Cipher} {sender : Id} {causalInfo : Timestamp Id} {secret : Bytes} {e : Exc}
      {dgm' : StrongRemoveDgm Id} : Run client log →
      process crypto client.state message sender causalInfo secret client.dgm = .error e dgm' →
      Run ⟨client.state, dgm'⟩ log

/-- **The value of a member is gone**: no stored PPRF yields it. -/
def Erased (client : Client Id Bytes Channel) (member : Id) (seed : Bytes) : Prop :=
  ∀ k pprf, client.state.pprfs k = some pprf → pprf.values member ≠ some (crypto.prf member seed)

/-! ### What is stored -/

/-- The PPRF of a message, as long as it is stored: the inputs, the sender and the seed. -/
structure Holds (pprf : Pprf Id Bytes) (sender : Id) (inputs : Finset Id) (seed : Bytes) : Prop where
  values : ∀ user value, pprf.values user = some value ↔
    user ∈ inputs ∧ user ≠ sender ∧ crypto.prf user seed = value

/-- The inputs that an add or a welcome allows. -/
def InputsOf (id : Id) (entry : Processed Id Bytes Cipher) (inputs : Finset Id) : Prop :=
  (∀ added, entry.message = .add added → inputs = {added}) ∧
    ∀ copy prfForAdded, entry.message = .welcome copy prfForAdded → inputs = {id}

/-- **What the stored PPRFs hold.** -/
structure Stored (client : Client Id Bytes Channel) (log : List (Processed Id Bytes Cipher)) : Prop where
  own : ∀ entry ∈ log, ∀ seed, entry.seed = some seed → ∃ pprf inputs,
    client.state.pprfs entry.causalInfo.messageId = some pprf ∧ Holds crypto pprf entry.sender inputs seed ∧
      InputsOf client.state.id entry inputs
  /-- Every value comes from the PPRF of a message. -/
  origin : ∀ k pprf, client.state.pprfs k = some pprf → ∀ user value, pprf.values user = some value →
    ∃ entry ∈ log, ∃ seed, entry.seed = some seed ∧ crypto.prf user seed = value ∧
      ∃ inputs, user ∈ inputs ∧ user ≠ entry.sender ∧ InputsOf client.state.id entry inputs
  logged : ∀ k pprf, client.state.pprfs k = some pprf → ∃ entry ∈ log, entry.causalInfo.messageId = k
  unique : ∀ entry ∈ log, ∀ other ∈ log, entry.causalInfo.messageId = other.causalInfo.messageId → entry = other
  ackedLogged : ∀ ack ∈ log, acksByPprf ack.message = true → ∀ k, ack.causalInfo.ackedMessageId = some k →
    ∃ entry ∈ log, entry.causalInfo.messageId = k
  answered : ∀ ack ∈ log, ∀ prfForAdded, ack.message = .addAck prfForAdded → ∃ entry ∈ log,
    ack.causalInfo.ackedMessageId = some entry.causalInfo.messageId ∧ AddsOther client.state.id entry ack.sender
  /-- The value with which a member has acknowledged a message is still there. -/
  acked : ∀ ack ∈ log, acksByPprf ack.message = true → ∀ entry ∈ log,
    ack.causalInfo.ackedMessageId = some entry.causalInfo.messageId → ∀ seed, entry.seed = some seed →
    ∃ pprf, client.state.pprfs entry.causalInfo.messageId = some pprf ∧
      pprf.values ack.sender = some (crypto.prf ack.sender seed)

section Step

variable {crypto} {state : State Id Bytes Channel} {sender : Id} {causalInfo : Timestamp Id} {dgm dgm' : StrongRemoveDgm Id}
  {message : FullDcgkaMessage Id Cipher} {secret : Bytes} {returned : ProcessReturn Id Bytes Channel Cipher}

theorem seedFor_eq {ciphertexts : List Cipher} {mid : State Id Bytes Channel} {seed : Option Bytes}
    (receives : state.receiveSeed crypto ((dgm.queryView sender).erase sender) sender ciphertexts = .ok (mid, seed)) :
    state.seedFor crypto dgm sender ciphertexts = seed := by
  unfold State.seedFor
  rw [receives]

theorem seedFor_congr {other : State Id Bytes Channel} (id : other.id = state.id)
    (nextSeed : other.nextSeed = state.nextSeed)
    (channels : other.twoPartyProtocols = state.twoPartyProtocols) (ciphertexts : List Cipher) :
    other.seedFor crypto dgm sender ciphertexts = state.seedFor crypto dgm sender ciphertexts := by
  have sameIndex (recipients : Finset Id) : other.myIndex recipients sender = state.myIndex recipients sender := by
    unfold State.myIndex
    rw [id]
  have sameChannel : other.channel crypto sender = state.channel crypto sender := by
    unfold State.channel
    rw [channels, id]
  unfold State.seedFor State.receiveSeed
  rw [id, sameIndex, nextSeed]
  by_cases own : sender = state.id
  · rw [if_pos own, if_pos own]
  rw [if_neg own, if_neg own]
  by_cases isRecipient : state.id ∈ (dgm.queryView sender).erase sender
  · rw [if_pos isRecipient, if_pos isRecipient]
    cases ciphertexts[state.myIndex ((dgm.queryView sender).erase sender) sender]? with
    | none => rfl
    | some ciphertext =>
      simp only [State.decryptFrom, sameChannel]
      cases crypto.decrypt (state.channel crypto sender) ciphertext <;> rfl
  · rw [if_neg isRecipient, if_neg isRecipient]

theorem Seeded.pprfs {view : Finset Id} {messageId : MessageId Id} {before after : State Id Bytes Channel}
    {seed updateSecret : Option Bytes} (seeded : Seeded crypto view sender messageId before after seed updateSecret) :
    after.id = before.id ∧
      (seed = none ∧ after.pprfs = before.pprfs ∨ ∃ seed' pprf, seed = some seed' ∧
        after.pprfs = Function.update before.pprfs messageId (some pprf) ∧ Holds crypto pprf sender view seed') := by
  cases seeded with
  | skipped same => exact ⟨same.id, .inl ⟨rfl, same.pprfs⟩⟩
  | used inView same =>
    refine ⟨same.id, .inr ⟨_, _, rfl, same.pprfs, ⟨fun user value => ?_⟩⟩⟩
    rw [Pprf.puncture_values]
    by_cases isSender : user = sender
    · simp [isSender]
    · rw [if_neg isSender, Pprf.new_values]
      exact ⟨fun ⟨inView, isValue⟩ => ⟨inView, isSender, isValue⟩, fun ⟨inView, _, isValue⟩ => ⟨inView, isValue⟩⟩

/-- The PPRF of an add has the added user as its only input. -/
theorem holds_add {added : Id} {seed : Bytes} (other : added ≠ sender) :
    Holds crypto (Pprf.new crypto seed {added}) sender {added} seed := by
  refine ⟨fun user value => ?_⟩
  rw [Pprf.new_values]
  refine ⟨fun ⟨isAdded, isValue⟩ => ⟨isAdded, ?_, isValue⟩, fun ⟨isAdded, _, isValue⟩ => ⟨isAdded, isValue⟩⟩
  rw [Finset.mem_singleton.mp isAdded]
  exact other

/-- **What a message does to the PPRFs**: it leaves its own one, a punctured copy of the acknowledged one, or
nothing. -/
theorem process_pprfs {client : Client Id Bytes Channel} {log : List (Processed Id Bytes Cipher)}
    (processes : process crypto client.state message sender causalInfo secret client.dgm = .ok returned dgm')
    (stays : client.state.id ∉ returned.removed) (meant : Meant client log message sender causalInfo) :
    returned.state.id = client.state.id ∧
    (acksByPprf message = true → ∃ acked pprf value, causalInfo.ackedMessageId = some acked ∧
      client.state.pprfs acked = some pprf ∧ pprf.values sender = some value) ∧
    ((∃ seed pprf inputs, pprfSeed crypto client.state (returned.newDgm.getD dgm') message sender = some seed ∧
        returned.state.pprfs = Function.update client.state.pprfs causalInfo.messageId (some pprf) ∧
        Holds crypto pprf sender inputs seed ∧
        InputsOf client.state.id ⟨message, sender, causalInfo, some seed⟩ inputs) ∨
      pprfSeed crypto client.state (returned.newDgm.getD dgm') message sender = none ∧
        (returned.state.pprfs = client.state.pprfs ∨ ∃ acked pprf, client.state.pprfs acked = some pprf ∧
          returned.state.pprfs = Function.update client.state.pprfs causalInfo.messageId
            (some (pprf.puncture sender)))) := by
  have handles := rethrow_ok_iff.mp processes
  cases message with
  | create ciphertexts ids =>
    obtain ⟨-, -, isNew, mid, seed, receives, seeded⟩ := processCreate_ok handles
    obtain ⟨id, cases⟩ := seeded.pprfs
    refine ⟨id, fun isAck => by simp [acksByPprf] at isAck, ?_⟩
    rw [isNew, Option.getD_some]
    rcases cases with ⟨rfl, same⟩ | ⟨seed', pprf, rfl, stored, holds⟩
    · exact .inr ⟨seedFor_eq receives, .inl same⟩
    · exact .inl ⟨seed', pprf, _, seedFor_eq receives, stored, holds, by simp [InputsOf]⟩
  | update ciphertexts =>
    obtain ⟨rfl, isNew, mid, seed, receives, seeded⟩ := processUpdate_ok handles
    obtain ⟨id, cases⟩ := seeded.pprfs
    refine ⟨id, fun isAck => by simp [acksByPprf] at isAck, ?_⟩
    rw [isNew, Option.getD_none]
    rcases cases with ⟨rfl, same⟩ | ⟨seed', pprf, rfl, stored, holds⟩
    · exact .inr ⟨seedFor_eq receives, .inl same⟩
    · exact .inl ⟨seed', pprf, _, seedFor_eq receives, stored, holds, by simp [InputsOf]⟩
  | remove ciphertexts removed =>
    obtain ⟨-, isNew, ⟨isRemoved, -⟩ | ⟨-, mid, seed, receives, seeded⟩⟩ := processRemove_ok handles
    · exact absurd isRemoved stays
    obtain ⟨id, cases⟩ := seeded.pprfs
    refine ⟨id, fun isAck => by simp [acksByPprf] at isAck, ?_⟩
    rw [isNew, Option.getD_none]
    rcases cases with ⟨rfl, same⟩ | ⟨seed', pprf, rfl, stored, holds⟩
    · exact .inr ⟨seedFor_eq receives, .inl same⟩
    · exact .inl ⟨seed', pprf, _, seedFor_eq receives, stored, holds, by simp [InputsOf]⟩
  | add added =>
    obtain ⟨-, isNew, same, -⟩ := processAdd_ok handles
    refine ⟨?_, fun isAck => by simp [acksByPprf] at isAck, ?_⟩
    · rw [same.id]
      unfold State.followAdd
      split <;> rfl
    rw [isNew, Option.getD_none]
    unfold State.followAdd at same
    by_cases inView : client.state.id ∈ dgm'.queryView sender
    · rw [if_pos inView] at same
      refine .inl ⟨_, _, {added}, if_pos inView, same.pprfs, ?_, ?_⟩
      · exact holds_add (meant.add added rfl)
      · exact ⟨fun other isAdd => by rw [FullDcgkaMessage.add.inj isAdd], by simp⟩
    · rw [if_neg inView] at same
      exact .inr ⟨if_neg inView, .inl same.pprfs⟩
  | welcome copy prfForAdded =>
    obtain ⟨-, -, mid, chainKey, decrypts, same, -⟩ := processWelcome_ok handles
    obtain ⟨sameSecrets, -⟩ := decryptFrom_ok decrypts
    let seed := crypto.hashUpdate (some chainKey) crypto.welcome
    have isSeed : pprfSeed crypto client.state (returned.newDgm.getD dgm') (.welcome copy prfForAdded) sender =
        some seed := by
      obtain ⟨channel, decrypted⟩ := (decryptFrom_ok decrypts).2.2
      show (match client.state.decryptFrom crypto sender prfForAdded with
        | .ok (_, chainKey) => some (crypto.hashUpdate (some chainKey) crypto.welcome)
        | .error _ => none) = some seed
      unfold State.decryptFrom
      rw [show crypto.decrypt (client.state.channel crypto sender) prfForAdded = some (channel, chainKey) from decrypted]
    have sameChain : (mid.putChainKey sender chainKey).prfPrngs sender = some chainKey := Function.update_self ..
    refine ⟨same.id.trans sameSecrets.id, fun isAck => by simp [acksByPprf] at isAck,
      .inl ⟨seed, Pprf.new crypto seed {client.state.id}, {client.state.id}, isSeed, ?_, ?_, ?_⟩⟩
    · rw [same.pprfs, ← show mid.id = client.state.id from sameSecrets.id,
        ← show mid.pprfs = client.state.pprfs from sameSecrets.pprfs]
      show Function.update mid.pprfs causalInfo.messageId (some (Pprf.new crypto
        (crypto.hashUpdate ((mid.putChainKey sender chainKey).prfPrngs sender) crypto.welcome) {mid.id})) = _
      rw [sameChain]
    · exact holds_add (meant.welcome copy prfForAdded rfl)
    · exact ⟨by simp, fun _ _ _ => rfl⟩
  | ack forwards =>
    obtain ⟨acked, isAcked, -, isNew, updateSecret, -, used⟩ := processAck_ok handles
    cases used with
    | @used pprf value found isValue same =>
      rw [same]
      exact ⟨rfl, fun _ => ⟨acked, pprf, value, isAcked, found, isValue⟩, .inr ⟨rfl, .inr ⟨acked, pprf, found, rfl⟩⟩⟩
  | ackWithUpdate forwards ciphertexts =>
    obtain ⟨acked, mid, ackSecret, isAcked, -, used, isNew, last, seed, receives, seeded⟩ :=
      processAckWithUpdate_ok handles
    cases used with
    | @used pprf value found isValue same =>
      obtain ⟨id, cases⟩ := seeded.pprfs
      have isSeed : client.state.seedFor crypto dgm' sender ciphertexts = seed := by
        rw [← seedFor_eq receives, same]
        refine (seedFor_congr ?_ ?_ ?_ ciphertexts).symm <;> rfl
      refine ⟨by rw [id, same]; rfl, fun _ => ⟨acked, pprf, value, isAcked, found, isValue⟩, ?_⟩
      rw [isNew, Option.getD_none]
      rcases cases with ⟨rfl, unchanged⟩ | ⟨seed', pprf', rfl, stored, holds⟩
      · exact .inr ⟨isSeed, .inr ⟨acked, pprf, found, by rw [unchanged, same]; rfl⟩⟩
      · refine .inl ⟨seed', pprf', _, isSeed, ?_, holds, by simp [InputsOf]⟩
        rw [stored, same]
        exact Function.update_idem ..
  | addAck prfForAdded =>
    obtain ⟨acked, mid, isAcked, -, isNew, takes, isState, -⟩ := processAddAck_ok handles
    obtain ⟨id, same, -⟩ := takeChainKey_ok takes
    refine ⟨?_, fun isAck => by simp [acksByPprf] at isAck, .inr ⟨rfl, .inl ?_⟩⟩
    · rw [isState, ← id]
      unfold State.followAddAck
      split <;> rfl
    · rw [isState, ← same]
      unfold State.followAddAck
      split <;> rfl
  | malformed => cases handles

end Step

/-! ### Every run -/

section Runs

variable {crypto} {client : Client Id Bytes Channel} {log : List (Processed Id Bytes Cipher)}

theorem Makes.sameSecrets {state' : State Id Bytes Channel} (makes : Makes crypto client state') :
    SameSecrets client.state state' := by
  cases makes with
  | create made | update made | remove made =>
    obtain ⟨⟨mid, ciphertexts⟩, generates, returns⟩ := except_bind_ok_iff.mp made
    obtain ⟨rfl, -⟩ := Prod.mk.inj (Except.ok.inj returns)
    exact (generateSeedSecret_ok generates).1
  | add made =>
    obtain ⟨⟨mid, ciphertext⟩, encrypts, returns⟩ := except_bind_ok_iff.mp made
    obtain ⟨rfl, -⟩ := Prod.mk.inj (Except.ok.inj returns)
    exact (encryptTo_ok encrypts).1
  | getOrdererInput => exact ⟨rfl, rfl, rfl, rfl⟩

theorem Stored.congr {other : Client Id Bytes Channel} (stored : Stored crypto client log)
    (same : SameSecrets client.state other.state) : Stored crypto other log := by
  obtain ⟨own, origin, logged, unique, ackedLogged, answered, acked⟩ := stored
  refine ⟨?_, ?_, ?_, unique, ackedLogged, ?_, ?_⟩
  · rwa [same.pprfs, same.id]
  · rwa [same.pprfs, same.id]
  · rwa [same.pprfs]
  · rwa [same.id]
  · rwa [same.pprfs]

theorem Stored.processed {message : FullDcgkaMessage Id Cipher} {sender : Id} {causalInfo : Timestamp Id} {secret : Bytes}
    {returned : ProcessReturn Id Bytes Channel Cipher} {dgm' : StrongRemoveDgm Id} (stored : Stored crypto client log)
    (processes : process crypto client.state message sender causalInfo secret client.dgm = .ok returned dgm')
    (stays : client.state.id ∉ returned.removed)
    (fresh : ∀ entry ∈ log, entry.causalInfo.messageId ≠ causalInfo.messageId)
    (meant : Meant client log message sender causalInfo) :
    Stored crypto ⟨returned.state, returned.newDgm.getD dgm'⟩ (log ++ [⟨message, sender, causalInfo,
        pprfSeed crypto client.state (returned.newDgm.getD dgm') message sender⟩]) := by
  obtain ⟨id, acks, effect⟩ := process_pprfs processes stays meant
  let new : Processed Id Bytes Cipher := ⟨message, sender, causalInfo,
    pprfSeed crypto client.state (returned.newDgm.getD dgm') message sender⟩
  have cases {entry : Processed Id Bytes Cipher} (here : entry ∈ log ++ [new]) : entry ∈ log ∨ entry = new := by
    rcases List.mem_append.mp here with old | isNew
    · exact .inl old
    · exact .inr (List.mem_singleton.mp isNew)
  have isNew : new ∈ log ++ [new] := List.mem_append_right _ (List.mem_singleton.mpr rfl)
  -- Only the PPRF under the id of the message changes.
  have others (k : MessageId Id) (different : k ≠ causalInfo.messageId) :
      returned.state.pprfs k = client.state.pprfs k := by
    rcases effect with ⟨seed, pprf, inputs, -, same, -⟩ | ⟨-, same | ⟨acked, pprf, -, same⟩⟩
    · rw [same, Function.update_of_ne different]
    · rw [same]
    · rw [same, Function.update_of_ne different]
  have unlogged (pprf : Pprf Id Bytes) : client.state.pprfs causalInfo.messageId ≠ some pprf := by
    intro found
    obtain ⟨entry, here, same⟩ := stored.logged _ _ found
    exact fresh entry here same
  refine ⟨fun entry here seed isSeed => ?_, fun k pprf found user value isValue => ?_, fun k pprf found => ?_,
    fun entry here other there same => ?_, fun ack here isAck k isAcked => ?_, fun ack here prfForAdded isAddAck => ?_,
    fun ack here isAck entry there isAcked seed isSeed => ?_⟩
  · rcases cases here with old | rfl
    · obtain ⟨pprf, inputs, found, holds, inputsOf⟩ := stored.own entry old seed isSeed
      refine ⟨pprf, inputs, (others _ (fresh entry old)).trans found, holds, ?_⟩
      rwa [show State.id _ = _ from id]
    · rcases effect with ⟨seed', pprf, inputs, isSeed', same, holds, inputsOf⟩ | ⟨noSeed, -⟩
      · obtain rfl := Option.some.inj (isSeed'.symm.trans isSeed)
        refine ⟨pprf, inputs, ?_, holds, ?_⟩
        · show returned.state.pprfs causalInfo.messageId = _
          rw [same, Function.update_self]
        · rwa [show State.id _ = _ from id]
      · exact absurd (isSeed.symm.trans noSeed) (by simp)
  · have old {k : MessageId Id} {pprf : Pprf Id Bytes} (found : client.state.pprfs k = some pprf)
        (isValue : pprf.values user = some value) : ∃ entry ∈ log ++ [new], ∃ seed, entry.seed = some seed ∧
        crypto.prf user seed = value ∧ ∃ inputs, user ∈ inputs ∧ user ≠ entry.sender ∧
          InputsOf returned.state.id entry inputs := by
      obtain ⟨entry, here, rest⟩ := stored.origin k pprf found user value isValue
      rw [id]
      exact ⟨entry, List.mem_append_left _ here, rest⟩
    by_cases different : k = causalInfo.messageId
    · subst different
      rcases effect with ⟨seed, pprf', inputs, isSeed, same, holds, inputsOf⟩ | ⟨-, same | ⟨acked, pprf', found', same⟩⟩
      · rw [show State.pprfs _ _ = some pprf' by rw [same, Function.update_self]] at found
        obtain rfl := Option.some.inj found
        obtain ⟨isInput, other, isValue'⟩ := (holds.values user value).mp isValue
        refine ⟨new, isNew, seed, isSeed, isValue', inputs, isInput, other, ?_⟩
        rwa [show State.id _ = _ from id]
      · exact old (same ▸ found) isValue
      · rw [show State.pprfs _ _ = some (pprf'.puncture sender) by rw [same, Function.update_self]] at found
        obtain rfl := Option.some.inj found
        rw [Pprf.puncture_values] at isValue
        split at isValue
        · simp at isValue
        · exact old found' isValue
    · exact old ((others k different).symm.trans found) isValue
  · by_cases different : k = causalInfo.messageId
    · exact ⟨new, isNew, different.symm⟩
    · obtain ⟨entry, here, same⟩ := stored.logged k pprf ((others k different).symm.trans found)
      exact ⟨entry, List.mem_append_left _ here, same⟩
  · rcases cases here with old | rfl
    · rcases cases there with old' | rfl
      · exact stored.unique entry old other old' same
      · exact absurd same (fresh entry old)
    · rcases cases there with old' | rfl
      · exact absurd same.symm (fresh other old')
      · rfl
  · rcases cases here with old | rfl
    · obtain ⟨entry, there, same⟩ := stored.ackedLogged ack old isAck k isAcked
      exact ⟨entry, List.mem_append_left _ there, same⟩
    · obtain ⟨acked, pprf, value, isAcked', found, -⟩ := acks isAck
      obtain rfl := Option.some.inj (isAcked'.symm.trans isAcked)
      obtain ⟨entry, there, same⟩ := stored.logged acked pprf found
      exact ⟨entry, List.mem_append_left _ there, same⟩
  · rw [id]
    rcases cases here with old | rfl
    · obtain ⟨entry, there, rest⟩ := stored.answered ack old prfForAdded isAddAck
      exact ⟨entry, List.mem_append_left _ there, rest⟩
    · obtain ⟨entry, there, rest⟩ := meant.addAck prfForAdded isAddAck
      exact ⟨entry, List.mem_append_left _ there, rest⟩
  · rcases cases there with old' | rfl
    · rw [show State.pprfs _ _ = _ from others _ (fresh entry old')]
      rcases cases here with old | rfl
      · exact stored.acked ack old isAck entry old' isAcked seed isSeed
      · obtain ⟨acked, pprf, value, isAcked', found, isValue⟩ := acks isAck
        obtain rfl := Option.some.inj (isAcked'.symm.trans isAcked)
        obtain ⟨pprf', inputs, found', holds, -⟩ := stored.own entry old' seed isSeed
        obtain rfl := Option.some.inj (found.symm.trans found')
        refine ⟨pprf, found, ?_⟩
        rw [isValue, ((holds.values sender value).mp isValue).2.2]
    · -- Nobody can acknowledge a message that the client has not processed.
      rcases cases here with old | rfl
      · obtain ⟨entry, there', same⟩ := stored.ackedLogged ack old isAck _ isAcked
        exact absurd same (fresh entry there')
      · obtain ⟨acked, pprf, value, isAcked', found, -⟩ := acks isAck
        obtain rfl := Option.some.inj (isAcked'.symm.trans isAcked)
        exact absurd found (unlogged pprf)

/-- **What is stored in every state that is reached.** -/
theorem Run.stored (run : Run crypto client log) : Stored crypto client log := by
  induction run with
  | start id => constructor <;> simp [State.new]
  | makes _ makes ih => exact ih.congr makes.sameSecrets
  | processed _ processes stays fresh meant ih => exact ih.processed processes stays fresh meant
  | removed _ _ _ ih => exact ih.congr (.refl _)
  | rejected _ _ ih => exact ih.congr (.refl _)

def IsAck (message : FullDcgkaMessage Id Cipher) : Prop :=
  acksByPprf message = true ∨ ∃ prfForAdded, message = .addAck prfForAdded

/-- **Which used values are gone.** Once a client has processed a message of a member, or that member's
acknowledgement of a message, the member's value of the PPRF of the message is gone exactly if the acknowledgement was
not one that uses the PPRF. -/
theorem erased_iff (injective : ∀ user seed seed', crypto.prf user seed = crypto.prf user seed' → seed = seed')
    (run : Run crypto client log)
    (distinct : ∀ entry ∈ log, ∀ other ∈ log, ∀ seed, entry.seed = some seed → other.seed = some seed → entry = other)
    {entry : Processed Id Bytes Cipher} (here : entry ∈ log) {seed : Bytes} (isSeed : entry.seed = some seed) {member : Id}
    (used : entry.sender = member ∨ ∃ ack ∈ log, ack.sender = member ∧ IsAck ack.message ∧
      ack.causalInfo.ackedMessageId = some entry.causalInfo.messageId) :
    Erased crypto client member seed ↔ ¬ ∃ ack ∈ log, ack.sender = member ∧ acksByPprf ack.message = true ∧
      ack.causalInfo.ackedMessageId = some entry.causalInfo.messageId := by
  have stored := run.stored
  constructor
  · rintro erased ⟨ack, there, rfl, isAck, isAcked⟩
    obtain ⟨pprf, found, isValue⟩ := stored.acked ack there isAck entry here isAcked seed isSeed
    exact erased _ pprf found isValue
  · intro notAcked k pprf found isValue
    obtain ⟨entry', there, seed', isSeed', sameValue, inputs, isInput, other, inputsOf⟩ :=
      stored.origin k pprf found member _ isValue
    obtain rfl := injective member seed' seed sameValue
    obtain rfl := distinct entry here entry' there seed' isSeed isSeed'
    rcases used with isSender | ⟨ack, isLogged, rfl, isPprfAck | ⟨prfForAdded, isAddAck⟩, isAcked⟩
    · exact other isSender.symm
    · exact notAcked ⟨ack, isLogged, rfl, isPprfAck, isAcked⟩
    · obtain ⟨entry', there', isAcked', addsOther⟩ := stored.answered ack isLogged prfForAdded isAddAck
      obtain rfl := stored.unique entry' there' entry here (Option.some.inj (isAcked'.symm.trans isAcked))
      rcases addsOther with ⟨added, isAdd, different⟩ | ⟨copy, prf, isWelcome, different⟩
      · rw [inputsOf.1 added isAdd] at isInput
        exact different (Finset.mem_singleton.mp isInput).symm
      · rw [inputsOf.2 copy prf isWelcome] at isInput
        exact different (Finset.mem_singleton.mp isInput).symm

end Runs

namespace Sample

/-- Hashes that keep their inputs apart, and channels that are in the clear. -/
def toy : Crypto Nat (List Nat) Unit (List Nat) where
  prf user seed := 1 :: user :: seed
  hashUpdate key chainUpdate := 2 :: (key.map (· ++ [0])).getD [] ++ chainUpdate
  hashChain key chainUpdate := 3 :: (key.map (· ++ [0])).getD [] ++ chainUpdate
  welcome := [4]
  add := [5]
  connect _ _ := ()
  encrypt _ plaintext := .ok ((), plaintext)
  decrypt _ ciphertext := some ((), ciphertext)

/-- Client 0 has created a group of clients 0, 1 and 2. -/
def created : FullDcgkaMessage Nat (List Nat) := .create [[7], [7]] [1, 2]

def createdInfo : Timestamp Nat := ⟨⟨0, 1⟩, none, none⟩

/-- Client 2 acknowledges it. -/
def ackInfo : Timestamp Nat := ⟨⟨2, 1⟩, some ⟨0, 1⟩, none⟩

/-- Client 1 processes the first, -/
def afterCreate : ProcessReturn Nat (List Nat) Unit (List Nat) × StrongRemoveDgm Nat :=
  (value? (process toy (State.new 1) created 0 createdInfo [] (StrongRemoveDgm.empty 1))).get (by decide +kernel)

def member : Client Nat (List Nat) Unit := ⟨afterCreate.1.state, afterCreate.1.newDgm.getD afterCreate.2⟩

/-- and then the second. -/
def afterAck : ProcessReturn Nat (List Nat) Unit (List Nat) × StrongRemoveDgm Nat :=
  (value? (process toy member.state (.ack []) 2 ackInfo [] member.dgm)).get (by decide +kernel)

def last : Client Nat (List Nat) Unit := ⟨afterAck.1.state, afterAck.1.newDgm.getD afterAck.2⟩

def createEntry : Processed Nat (List Nat) (List Nat) := ⟨created, 0, createdInfo, some [7]⟩

def ackEntry : Processed Nat (List Nat) (List Nat) := ⟨.ack [], 2, ackInfo, none⟩

theorem run_last : Run toy last [createEntry, ackEntry] := by
  have creates : process toy (State.new 1) created 0 createdInfo [] (StrongRemoveDgm.empty 1)
      = .ok afterCreate.1 afterCreate.2 := eq_ok_of_isSome (by decide +kernel)
  have createSeed : pprfSeed toy (State.new 1) member.dgm created 0 = some [7] := by decide +kernel
  have first : Run toy member [createEntry] := by
    have run : Run toy member [⟨created, 0, createdInfo, pprfSeed toy (State.new 1) member.dgm created 0⟩] :=
      .processed (.start 1) creates (by decide +kernel) (by simp) ⟨by simp [created], by simp [created], by simp [created]⟩
    rwa [createSeed] at run
  have acks : process toy member.state (.ack []) 2 ackInfo [] member.dgm = .ok afterAck.1 afterAck.2 :=
    eq_ok_of_isSome (by decide +kernel)
  exact .processed first acks (by decide +kernel) (by decide +kernel) ⟨by simp, by simp, by simp⟩

/-- **The value with which client 2 has acknowledged is still there.** -/
theorem acked_value_is_kept : Run toy last [createEntry, ackEntry] ∧ createEntry.seed = some [7] ∧
    ackEntry.sender = 2 ∧ IsAck ackEntry.message ∧
    ackEntry.causalInfo.ackedMessageId = some createEntry.causalInfo.messageId ∧ ¬ Erased toy last 2 [7] := by
  have kept : (last.state.pprfs ⟨0, 1⟩).bind (fun pprf => pprf.values 2) = some (toy.prf 2 [7]) := by decide +kernel
  obtain ⟨pprf, found, isValue⟩ := Option.bind_eq_some_iff.mp kept
  exact ⟨run_last, rfl, rfl, .inl rfl, rfl, fun erased => erased _ pprf found isValue⟩

/-- The value of client 0, who has sent the message, is gone. -/
theorem sender_value_is_erased : Erased toy last 0 [7] := by
  have injective (user : Nat) (seed seed' : List Nat) (same : toy.prf user seed = toy.prf user seed') : seed = seed' := by
    simpa [toy] using same
  refine (erased_iff injective run_last ?_ (List.mem_cons_self : createEntry ∈ _) rfl (.inl rfl)).mpr ?_
  · intro entry here other there seed isSeed isSeed'
    simp only [List.mem_cons, List.not_mem_nil, or_false] at here there
    rcases here with rfl | rfl
    · rcases there with rfl | rfl
      · rfl
      · simp [ackEntry] at isSeed'
    · simp [ackEntry] at isSeed
  · rintro ⟨ack, here, isSender, isAck, -⟩
    simp only [List.mem_cons, List.not_mem_nil, or_false] at here
    rcases here with rfl | rfl
    · simp [createEntry, created, acksByPprf] at isAck
    · simp [ackEntry, createEntry] at isSender

end Sample

end KeyhiveEval.Dcgka.FullDcgka
