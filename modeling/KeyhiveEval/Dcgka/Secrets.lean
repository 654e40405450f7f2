/-
**What the handlers do to the secrets of a client.**

The secrets are the PPRFs and the chain keys. Encrypting and decrypting leave them alone (`SameSecrets`); every
handler moves at most the chain of the sender and stores at most one PPRF, under the id of the message.

* `processSeedSecret_ok` — a seed. `usePprf_ok` — an acknowledgement.
* `processCreate_ok` and its companions — one lemma for every handler: what it asks of the group, and what it does to
  the secrets.
-/

import KeyhiveEval.Dcgka.FullDcgka

set_option linter.unusedSectionVars false

namespace KeyhiveEval.Dcgka

open Stateful

variable {Id Bytes Channel Cipher : Type} [LinearOrder Id] {crypto : Crypto Id Bytes Channel Cipher}

namespace Pprf

/-- A value that is taken out was there, and is gone. -/
theorem popValue_ok {pprf pprf' : Pprf Id Bytes} {input : Id} {output : Bytes}
    (pops : pprf.popValue input = .ok (pprf', output)) : pprf.values input = some output ∧ pprf' = pprf.puncture input := by
  unfold popValue at pops
  split at pops
  · simp at pops
  · rename_i value found
    obtain ⟨rfl, rfl⟩ := Prod.mk.inj (Except.ok.inj pops)
    exact ⟨found, rfl⟩

theorem puncture_values (pprf : Pprf Id Bytes) (input other : Id) :
    (pprf.puncture input).values other = if other = input then none else pprf.values other := by
  show Function.update pprf.values input none other = _
  by_cases same : other = input
  · rw [same, Function.update_self, if_pos rfl]
  · rw [Function.update_of_ne same, if_neg same]

/-- A new PPRF has the values of its inputs, and no others. -/
theorem new_values {seed : Bytes} {inputs : Finset Id} {input : Id} {value : Bytes} :
    (new crypto seed inputs).values input = some value ↔ input ∈ inputs ∧ crypto.prf input seed = value := by
  unfold new
  simp

end Pprf

namespace FullDcgka

/-- **Nothing secret has changed.** -/
structure SameSecrets (before after : State Id Bytes Channel) : Prop where
  id : after.id = before.id
  pprfs : after.pprfs = before.pprfs
  prfPrngs : after.prfPrngs = before.prfPrngs
  addMessageId : after.addMessageId = before.addMessageId

namespace SameSecrets

theorem refl (state : State Id Bytes Channel) : SameSecrets state state := ⟨rfl, rfl, rfl, rfl⟩

theorem trans {first second third : State Id Bytes Channel} (same : SameSecrets first second)
    (same' : SameSecrets second third) : SameSecrets first third :=
  ⟨same'.id.trans same.id, same'.pprfs.trans same.pprfs, same'.prfPrngs.trans same.prfPrngs,
    same'.addMessageId.trans same.addMessageId⟩

end SameSecrets

section Channels

variable {state state' : State Id Bytes Channel} {sender : Id} {plaintext : Option Bytes} {ciphertext : Cipher}

/-- Encrypting advances a channel, and needs a plaintext. -/
theorem encryptTo_ok {recipient : Id}
    (encrypts : state.encryptTo crypto recipient plaintext = .ok (state', ciphertext)) :
    SameSecrets state state' ∧ state'.nextSeed = state.nextSeed ∧ ∃ bytes channel, plaintext = some bytes ∧
      crypto.encrypt (state.channel crypto recipient) bytes = .ok (channel, ciphertext) := by
  unfold State.encryptTo at encrypts
  split at encrypts
  · cases encrypts
  · rename_i bytes
    obtain ⟨⟨channel, ciphertext'⟩, encrypted, returns⟩ := except_bind_ok_iff.mp encrypts
    obtain ⟨rfl, rfl⟩ := Prod.mk.inj (Except.ok.inj returns)
    exact ⟨⟨rfl, rfl, rfl, rfl⟩, rfl, bytes, channel, rfl, encrypted⟩

/-- Decrypting advances a channel. -/
theorem decryptFrom_ok {plaintext : Bytes}
    (decrypts : state.decryptFrom crypto sender ciphertext = .ok (state', plaintext)) :
    SameSecrets state state' ∧ state'.nextSeed = state.nextSeed ∧ ∃ channel,
      crypto.decrypt (state.channel crypto sender) ciphertext = some (channel, plaintext) := by
  unfold State.decryptFrom at decrypts
  split at decrypts
  · simp at decrypts
  · rename_i channel plaintext' found
    obtain ⟨rfl, rfl⟩ := Prod.mk.inj (Except.ok.inj decrypts)
    exact ⟨⟨rfl, rfl, rfl, rfl⟩, rfl, channel, found⟩

variable {recipients : List Id} {ciphertexts : List Cipher}

theorem encryptToAll_ok
    (encrypts : state.encryptToAll crypto plaintext recipients = .ok (state', ciphertexts)) :
    SameSecrets state state' ∧ state'.nextSeed = state.nextSeed := by
  induction recipients generalizing state ciphertexts with
  | nil =>
    obtain ⟨rfl, -⟩ := Prod.mk.inj (Except.ok.inj encrypts)
    exact ⟨.refl _, rfl⟩
  | cons recipient recipients ih =>
    obtain ⟨⟨mid, ciphertext⟩, first, rest⟩ := except_bind_ok_iff.mp encrypts
    obtain ⟨⟨last, ciphertexts'⟩, others, returns⟩ := except_bind_ok_iff.mp rest
    obtain ⟨rfl, -⟩ := Prod.mk.inj (Except.ok.inj returns)
    obtain ⟨same, sameSeed, -⟩ := encryptTo_ok first
    obtain ⟨same', sameSeed'⟩ := ih others
    exact ⟨same.trans same', sameSeed'.trans sameSeed⟩

/-- A seed that is made is kept for the own message. -/
theorem generateSeedSecret_ok {secret : Bytes}
    (generates : state.generateSeedSecret crypto recipients secret = .ok (state', ciphertexts)) :
    SameSecrets state state' ∧ state'.nextSeed = some secret := by
  obtain ⟨⟨mid, ciphertexts'⟩, encrypts, returns⟩ := except_bind_ok_iff.mp generates
  obtain ⟨rfl, -⟩ := Prod.mk.inj (Except.ok.inj returns)
  obtain ⟨same, -⟩ := encryptToAll_ok encrypts
  exact ⟨⟨same.id, same.pprfs, same.prfPrngs, same.addMessageId⟩, rfl⟩

/-- Receiving a seed only uses it up, or a channel. -/
theorem receiveSeed_ok {recipients : Finset Id} {seed : Option Bytes}
    (receives : state.receiveSeed crypto recipients sender ciphertexts = .ok (state', seed)) :
    SameSecrets state state' := by
  unfold State.receiveSeed at receives
  split at receives
  · obtain ⟨rfl, -⟩ := Prod.mk.inj (Except.ok.inj receives)
    exact ⟨rfl, rfl, rfl, rfl⟩
  · split at receives
    · split at receives
      · simp at receives
      · obtain ⟨⟨mid, plaintext⟩, decrypts, returns⟩ := except_bind_ok_iff.mp receives
        obtain ⟨rfl, -⟩ := Prod.mk.inj (Except.ok.inj returns)
        exact (decryptFrom_ok decrypts).1
    · obtain ⟨rfl, -⟩ := Prod.mk.inj (Except.ok.inj receives)
      exact .refl _

variable {messageId : MessageId Id}

/-- Values are forwarded from copies: the PPRFs stay as they are. -/
theorem forwardTo_ok {needsForwarding : List Id} {forwards : Forwards Id Cipher}
    (forwardsAll : State.forwardTo crypto messageId state needsForwarding = .ok (state', forwards)) :
    SameSecrets state state' := by
  induction needsForwarding generalizing state forwards with
  | nil =>
    obtain ⟨rfl, -⟩ := Prod.mk.inj (Except.ok.inj forwardsAll)
    exact .refl _
  | cons toForward rest ih =>
    unfold State.forwardTo at forwardsAll
    split at forwardsAll
    · simp at forwardsAll
    · obtain ⟨⟨_, secret⟩, pops, forwardsAll⟩ := except_bind_ok_iff.mp forwardsAll
      obtain ⟨⟨mid, ciphertext⟩, encrypts, forwardsAll⟩ := except_bind_ok_iff.mp forwardsAll
      obtain ⟨⟨last, forwards'⟩, others, returns⟩ := except_bind_ok_iff.mp forwardsAll
      obtain ⟨rfl, -⟩ := Prod.mk.inj (Except.ok.inj returns)
      exact (encryptTo_ok encrypts).1.trans (ih others)

theorem makeAck_ok {dgm : StrongRemoveDgm Id} {recipients : Finset Id}
    {ack : Option (Forwards Id Cipher)}
    (makes : State.makeAck crypto dgm state recipients sender messageId = .ok (state', ack)) :
    SameSecrets state state' := by
  unfold State.makeAck at makes
  split at makes
  · obtain ⟨rfl, -⟩ := Prod.mk.inj (Except.ok.inj makes)
    exact .refl _
  · obtain ⟨⟨mid, forwards⟩, forwardsAll, returns⟩ := except_bind_ok_iff.mp makes
    obtain ⟨rfl, -⟩ := Prod.mk.inj (Except.ok.inj returns)
    obtain ⟨id, pprfs, prfPrngs, addMessageId⟩ := forwardTo_ok forwardsAll
    exact ⟨id, pprfs, prfPrngs, addMessageId⟩

end Channels

/-! ### Seeds and acknowledgements -/

/-- **The effect of a seed**: it is skipped, or moves the chain of the sender and leaves a PPRF that is punctured at
the sender. The last two arguments are the seed and the update secret. -/
inductive Seeded (crypto : Crypto Id Bytes Channel Cipher) (view : Finset Id) (sender : Id) (messageId : MessageId Id)
    (before after : State Id Bytes Channel) : Option Bytes → Option Bytes → Prop
  | skipped : SameSecrets before after → Seeded crypto view sender messageId before after none none
  | used {seed : Bytes} : sender ∈ view →
      SameSecrets ((before.putPprf messageId ((Pprf.new crypto seed view).puncture sender)).prng crypto sender
        (crypto.prf sender seed)).1 after →
      Seeded crypto view sender messageId before after (some seed)
        (some (crypto.hashUpdate (before.prfPrngs sender) (crypto.prf sender seed)))

/-- **The effect of an acknowledgement**: it moves the chain of the sender by its value of the PPRF, and stores the
punctured PPRF under the id of the acknowledgement. -/
inductive AckUsed (crypto : Crypto Id Bytes Channel Cipher) (sender : Id) (messageId acked : MessageId Id)
    (before after : State Id Bytes Channel) : Bytes → Prop
  | used {pprf : Pprf Id Bytes} {value : Bytes} : before.pprfs acked = some pprf → pprf.values sender = some value →
      after = ((before.putPprf messageId (pprf.puncture sender)).prng crypto sender value).1 →
      AckUsed crypto sender messageId acked before after (crypto.hashUpdate (before.prfPrngs sender) value)

section Seeds

variable {state state' : State Id Bytes Channel} {sender : Id} {messageId : MessageId Id}

theorem SameSecrets.prng (crypto : Crypto Id Bytes Channel Cipher) {before after : State Id Bytes Channel}
    (same : SameSecrets before after) (sender : Id) (messageId : MessageId Id) (pprf : Pprf Id Bytes)
    (chainUpdate : Bytes) :
    SameSecrets ((before.putPprf messageId pprf).prng crypto sender chainUpdate).1
      ((after.putPprf messageId pprf).prng crypto sender chainUpdate).1 := by
  refine ⟨same.id, ?_, ?_, same.addMessageId⟩
  · show Function.update after.pprfs messageId _ = Function.update before.pprfs messageId _
    rw [same.pprfs]
  · show Function.update after.prfPrngs sender (some (crypto.hashChain (after.prfPrngs sender) chainUpdate)) =
      Function.update before.prfPrngs sender (some (crypto.hashChain (before.prfPrngs sender) chainUpdate))
    rw [same.prfPrngs]

/-- **Processing a seed.** -/
theorem processSeedSecret_ok {dgm : StrongRemoveDgm Id} {ciphertexts : List Cipher} {ack : Option (Forwards Id Cipher)}
    {updateSecret : Option Bytes}
    (processes : State.processSeedSecret crypto dgm state sender messageId ciphertexts = .ok (state', ack, updateSecret)) :
    ∃ mid seed, state.receiveSeed crypto ((dgm.queryView sender).erase sender) sender ciphertexts = .ok (mid, seed) ∧
      Seeded crypto (dgm.queryView sender) sender messageId state state' seed updateSecret := by
  obtain ⟨⟨mid, seed⟩, receives, rest⟩ := except_bind_ok_iff.mp processes
  obtain ⟨⟨used, updateSecret'⟩, uses, rest⟩ := except_bind_ok_iff.mp rest
  obtain ⟨⟨last, ack'⟩, makes, returns⟩ := except_bind_ok_iff.mp rest
  obtain ⟨rfl, pair⟩ := Prod.mk.inj (Except.ok.inj returns)
  obtain ⟨-, rfl⟩ := Prod.mk.inj pair
  have received := receiveSeed_ok receives
  refine ⟨mid, seed, receives, ?_⟩
  cases seed with
  | none =>
    obtain ⟨rfl, rfl⟩ := Prod.mk.inj (Except.ok.inj uses)
    exact .skipped (received.trans (makeAck_ok makes))
  | some seed =>
    obtain ⟨⟨pprf, value⟩, pops, returns⟩ := except_bind_ok_iff.mp uses
    obtain ⟨found, rfl⟩ := Pprf.popValue_ok pops
    obtain ⟨inView, rfl⟩ := Pprf.new_values.mp found
    obtain ⟨rfl, rfl⟩ := Prod.mk.inj (Except.ok.inj returns)
    have same := (received.prng crypto sender messageId
      ((Pprf.new crypto seed (dgm.queryView sender)).puncture sender) (crypto.prf sender seed)).trans (makeAck_ok makes)
    show Seeded _ _ _ _ _ _ _ (some (crypto.hashUpdate (mid.prfPrngs sender) _))
    rw [received.prfPrngs]
    exact .used inView same

/-- **Processing an acknowledgement.** -/
theorem usePprf_ok {acked : MessageId Id} {updateSecret : Bytes}
    (uses : state.usePprf crypto sender messageId acked = .ok (state', updateSecret)) :
    AckUsed crypto sender messageId acked state state' updateSecret := by
  unfold State.usePprf at uses
  split at uses
  · simp at uses
  · rename_i pprf found
    obtain ⟨⟨punctured, value⟩, pops, returns⟩ := except_bind_ok_iff.mp uses
    obtain ⟨isValue, rfl⟩ := Pprf.popValue_ok pops
    obtain ⟨rfl, rfl⟩ := Prod.mk.inj (Except.ok.inj returns)
    exact .used found isValue rfl

end Seeds

/-! ### The handlers -/

section Handlers

variable {state : State Id Bytes Channel} {sender : Id} {causalInfo : Timestamp Id} {dgm dgm' : StrongRemoveDgm Id}
  {returned : ProcessReturn Id Bytes Channel Cipher}

variable {ciphertexts : List Cipher}

/-- An update changes nobody's membership. -/
theorem processUpdate_ok
    (processes : processUpdate crypto state ciphertexts sender causalInfo dgm = .ok returned dgm') :
    dgm' = dgm ∧ returned.newDgm = none ∧ ∃ mid seed,
      state.receiveSeed crypto ((dgm.queryView sender).erase sender) sender ciphertexts = .ok (mid, seed) ∧
      Seeded crypto (dgm.queryView sender) sender causalInfo.messageId state returned.state seed
        returned.updateSecret := by
  obtain ⟨_, _, gets, rest⟩ := bind_ok_iff.mp processes
  obtain ⟨rfl, rfl⟩ := get_ok_iff.mp gets
  obtain ⟨⟨state', ack, updateSecret⟩, _, seeds, returns⟩ := bind_ok_iff.mp rest
  obtain ⟨processed, rfl⟩ := ofExcept_ok_iff.mp seeds
  obtain ⟨rfl, rfl⟩ := pure_ok_iff.mp returns
  exact ⟨rfl, rfl, processSeedSecret_ok processed⟩

/-- A create comes with a new group, of which the client is a member. -/
theorem processCreate_ok {ids : List Id}
    (processes : processCreate crypto state ciphertexts ids sender causalInfo dgm = .ok returned dgm') :
    dgm' = dgm ∧ state.id ∈ ids ++ [sender] ∧
      returned.newDgm = some (StrongRemoveDgm.new (ids ++ [sender]) state.id) ∧ ∃ mid seed,
      state.receiveSeed crypto (((StrongRemoveDgm.new (ids ++ [sender]) state.id).queryView sender).erase sender)
        sender ciphertexts = .ok (mid, seed) ∧
      Seeded crypto ((StrongRemoveDgm.new (ids ++ [sender]) state.id).queryView sender) sender causalInfo.messageId
        state returned.state seed returned.updateSecret := by
  unfold processCreate at processes
  split at processes
  · obtain ⟨_, _, throws, -⟩ := bind_ok_iff.mp processes
    cases throws
  · rename_i isMember
    obtain ⟨⟨state', ack, updateSecret⟩, _, seeds, returns⟩ := bind_ok_iff.mp processes
    obtain ⟨processed, rfl⟩ := ofExcept_ok_iff.mp seeds
    obtain ⟨rfl, rfl⟩ := pure_ok_iff.mp returns
    obtain ⟨mid, seed, receives, seeded⟩ := processSeedSecret_ok processed
    refine ⟨rfl, not_not.mp isMember, rfl, mid, seed, receives, ?_⟩
    cases seeded with
    | skipped same => exact .skipped ⟨same.id, same.pprfs, same.prfPrngs, same.addMessageId⟩
    | used inView same => exact .used inView ⟨same.id, same.pprfs, same.prfPrngs, same.addMessageId⟩

/-- An acknowledgement uses the PPRF of the message it acknowledges. -/
theorem processAck_ok (processes : processAck crypto state sender causalInfo dgm = .ok returned dgm') :
    ∃ acked, causalInfo.ackedMessageId = some acked ∧
      noteAck state sender acked false dgm = .ok returned.ackedMessageIds dgm' ∧ returned.newDgm = none ∧
      ∃ updateSecret, returned.updateSecret = some updateSecret ∧
        AckUsed crypto sender causalInfo.messageId acked state returned.state updateSecret := by
  unfold processAck at processes
  cases isAcked : causalInfo.ackedMessageId with
  | none =>
    rw [isAcked] at processes
    cases processes
  | some acked =>
    rw [isAcked] at processes
    obtain ⟨ackedMessageIds, _, notes, rest⟩ := bind_ok_iff.mp processes
    obtain ⟨⟨state', updateSecret⟩, _, uses, returns⟩ := bind_ok_iff.mp rest
    obtain ⟨used, rfl⟩ := ofExcept_ok_iff.mp uses
    obtain ⟨rfl, rfl⟩ := pure_ok_iff.mp returns
    exact ⟨acked, rfl, notes, rfl, updateSecret, rfl, usePprf_ok used⟩

/-- First the acknowledgement, then the update, on one state. -/
theorem processAckWithUpdate_ok
    (processes : processAckWithUpdate crypto state ciphertexts sender causalInfo dgm = .ok returned dgm') :
    ∃ acked mid ackSecret, causalInfo.ackedMessageId = some acked ∧
      (∃ ackedMessageIds, noteAck state sender acked false dgm = .ok ackedMessageIds dgm') ∧
      AckUsed crypto sender causalInfo.messageId acked state mid ackSecret ∧ returned.newDgm = none ∧
      ∃ last seed, mid.receiveSeed crypto ((dgm'.queryView sender).erase sender) sender ciphertexts = .ok (last, seed) ∧
        Seeded crypto (dgm'.queryView sender) sender causalInfo.messageId mid returned.state seed
          returned.updateSecret := by
  obtain ⟨ackResult, _, acks, rest⟩ := bind_ok_iff.mp processes
  obtain ⟨updateResult, _, updates, returns⟩ := bind_ok_iff.mp rest
  obtain ⟨rfl, rfl⟩ := pure_ok_iff.mp returns
  obtain ⟨acked, isAcked, notes, -, ackSecret, -, used⟩ := processAck_ok acks
  obtain ⟨rfl, isNew, last, seed, receives, seeded⟩ := processUpdate_ok updates
  exact ⟨acked, ackResult.state, ackSecret, isAcked, ⟨_, notes⟩, used, isNew, last, seed, receives, seeded⟩

variable {secret : Bytes} {state' : State Id Bytes Channel} {response : Option (FullDcgkaMessage Id Cipher)}

theorem respondToRemove_ok {ack : Option (Forwards Id Cipher)}
    (responds : state.respondToRemove crypto dgm sender ack secret = .ok (state', response)) :
    SameSecrets state state' := by
  unfold State.respondToRemove at responds
  split at responds
  · obtain ⟨rfl, -⟩ := Prod.mk.inj (Except.ok.inj responds)
    exact .refl _
  · obtain ⟨⟨mid, ciphertexts⟩, generates, returns⟩ := except_bind_ok_iff.mp responds
    obtain ⟨rfl, -⟩ := Prod.mk.inj (Except.ok.inj returns)
    exact (generateSeedSecret_ok generates).1

/-- A client that is removed does nothing else; any other one takes the seed. -/
theorem processRemove_ok {removed : Id}
    (processes : processRemove crypto state ciphertexts removed sender causalInfo secret dgm = .ok returned dgm') :
    StrongRemoveDgm.remove sender [removed] causalInfo.messageId dgm = .ok returned.removed dgm' ∧
      returned.newDgm = none ∧
      (state.id ∈ returned.removed ∧ returned.state = state ∧ returned.updateSecret = none ∨
        state.id ∉ returned.removed ∧ ∃ mid seed,
          state.receiveSeed crypto ((dgm'.queryView sender).erase sender) sender ciphertexts = .ok (mid, seed) ∧
          Seeded crypto (dgm'.queryView sender) sender causalInfo.messageId state returned.state seed
            returned.updateSecret) := by
  obtain ⟨removedCollection, dgm'', removes, rest⟩ := bind_ok_iff.mp processes
  split at rest
  · rename_i isRemoved
    obtain ⟨rfl, rfl⟩ := pure_ok_iff.mp rest
    exact ⟨removes, rfl, .inl ⟨isRemoved, rfl, rfl⟩⟩
  · rename_i notRemoved
    obtain ⟨_, _, gets, rest⟩ := bind_ok_iff.mp rest
    obtain ⟨rfl, rfl⟩ := get_ok_iff.mp gets
    obtain ⟨⟨state', ack, updateSecret⟩, _, seeds, rest⟩ := bind_ok_iff.mp rest
    obtain ⟨processed, rfl⟩ := ofExcept_ok_iff.mp seeds
    obtain ⟨⟨last, response⟩, _, responds, returns⟩ := bind_ok_iff.mp rest
    obtain ⟨responded, rfl⟩ := ofExcept_ok_iff.mp responds
    obtain ⟨rfl, rfl⟩ := pure_ok_iff.mp returns
    obtain ⟨mid, seed, receives, seeded⟩ := processSeedSecret_ok processed
    refine ⟨removes, rfl, .inr ⟨notRemoved, mid, seed, receives, ?_⟩⟩
    have same := respondToRemove_ok responded
    cases seeded with
    | skipped same' => exact .skipped (same'.trans same)
    | used inView same' => exact .used inView (same'.trans same)

variable {added : Id}

theorem respondToAdd_ok {messageId : MessageId Id}
    (responds : state.respondToAdd crypto added sender messageId = .ok (state', response)) :
    SameSecrets state state' := by
  unfold State.respondToAdd at responds
  split at responds
  · obtain ⟨rfl, -⟩ := Prod.mk.inj (Except.ok.inj responds)
    exact .refl _
  · obtain ⟨⟨mid, prfForAdded⟩, encrypts, returns⟩ := except_bind_ok_iff.mp responds
    obtain ⟨rfl, -⟩ := Prod.mk.inj (Except.ok.inj returns)
    obtain ⟨⟨id, pprfs, prfPrngs, addMessageId⟩, -⟩ := encryptTo_ok encrypts
    exact ⟨id, pprfs, prfPrngs, addMessageId⟩

/-- An add moves the chain of the adder, and leaves a PPRF for the added user. -/
theorem processAdd_ok
    (processes : processAdd crypto state added sender causalInfo dgm = .ok returned dgm') :
    (∃ cancelled, StrongRemoveDgm.add sender added causalInfo.messageId dgm = .ok cancelled dgm') ∧
      returned.newDgm = none ∧
      SameSecrets (state.followAdd crypto dgm' sender causalInfo.messageId added).1 returned.state ∧
      returned.updateSecret = (state.followAdd crypto dgm' sender causalInfo.messageId added).2 := by
  obtain ⟨cancelled, dgm'', adds, rest⟩ := bind_ok_iff.mp processes
  obtain ⟨_, _, gets, rest⟩ := bind_ok_iff.mp rest
  obtain ⟨rfl, rfl⟩ := get_ok_iff.mp gets
  obtain ⟨⟨last, response⟩, _, responds, returns⟩ := bind_ok_iff.mp rest
  obtain ⟨responded, rfl⟩ := ofExcept_ok_iff.mp responds
  obtain ⟨rfl, rfl⟩ := pure_ok_iff.mp returns
  exact ⟨⟨cancelled, adds⟩, rfl, respondToAdd_ok responded, rfl⟩

variable {prfForAdded : Cipher}

/-- The added user takes the chain key that it is sent, and others keep what they have. -/
theorem takeChainKey_ok {acked : MessageId Id}
    (takes : state.takeChainKey crypto sender acked prfForAdded = .ok state') :
    state'.id = state.id ∧ state'.pprfs = state.pprfs ∧ state'.addMessageId = state.addMessageId ∧
      (some acked ≠ state.addMessageId ∧ state' = state ∨ some acked = state.addMessageId ∧ ∃ channel chainKey,
        crypto.decrypt (state.channel crypto sender) prfForAdded = some (channel, chainKey) ∧
        state'.prfPrngs = Function.update state.prfPrngs sender (some chainKey)) := by
  unfold State.takeChainKey at takes
  split at takes
  · rename_i isOwn
    obtain ⟨⟨mid, chainKey⟩, decrypts, returns⟩ := except_bind_ok_iff.mp takes
    obtain ⟨same, -, channel, decrypted⟩ := decryptFrom_ok decrypts
    obtain rfl := Except.ok.inj returns
    refine ⟨same.id, same.pprfs, same.addMessageId, .inr ⟨isOwn, channel, chainKey, decrypted, ?_⟩⟩
    show Function.update mid.prfPrngs sender _ = _
    rw [same.prfPrngs]
  · rename_i other
    obtain rfl := Except.ok.inj takes
    exact ⟨rfl, rfl, rfl, .inl ⟨other, rfl⟩⟩

/-- An acknowledgement of an add moves the chain of the acknowledger. -/
theorem processAddAck_ok
    (processes : processAddAck crypto state prfForAdded sender causalInfo dgm = .ok returned dgm') :
    ∃ acked mid, causalInfo.ackedMessageId = some acked ∧
      noteAck state sender acked true dgm = .ok returned.ackedMessageIds dgm' ∧ returned.newDgm = none ∧
      state.takeChainKey crypto sender acked prfForAdded = .ok mid ∧
      returned.state = (mid.followAddAck crypto dgm' sender).1 ∧
      returned.updateSecret = (mid.followAddAck crypto dgm' sender).2 := by
  unfold processAddAck at processes
  cases isAcked : causalInfo.ackedMessageId with
  | none =>
    rw [isAcked] at processes
    cases processes
  | some acked =>
    rw [isAcked] at processes
    obtain ⟨ackedMessageIds, _, notes, rest⟩ := bind_ok_iff.mp processes
    obtain ⟨mid, _, takes, rest⟩ := bind_ok_iff.mp rest
    obtain ⟨taken, rfl⟩ := ofExcept_ok_iff.mp takes
    obtain ⟨_, _, gets, returns⟩ := bind_ok_iff.mp rest
    obtain ⟨rfl, rfl⟩ := get_ok_iff.mp gets
    obtain ⟨rfl, rfl⟩ := pure_ok_iff.mp returns
    exact ⟨acked, mid, rfl, notes, rfl, taken, rfl, rfl⟩

/-- A welcome brings the copy of the group and the chain of the adder. -/
theorem processWelcome_ok {copy : StrongRemoveDgm Id}
    (processes : processWelcome crypto state copy prfForAdded sender causalInfo dgm = .ok returned dgm') :
    dgm' = dgm ∧ (∃ new, welcomeDgm copy state.id sender causalInfo.messageId = .ok new ∧ returned.newDgm = some new) ∧
      ∃ mid chainKey, State.decryptFrom crypto { state with addMessageId := some causalInfo.messageId } sender prfForAdded
          = .ok (mid, chainKey) ∧
        SameSecrets ((mid.putChainKey sender chainKey).prngAdd crypto sender causalInfo.messageId mid.id).1
          returned.state ∧
        returned.updateSecret =
          some ((mid.putChainKey sender chainKey).prngAdd crypto sender causalInfo.messageId mid.id).2 := by
  obtain ⟨new, _, welcomes, rest⟩ := bind_ok_iff.mp processes
  obtain ⟨welcomed, rfl⟩ := ofExcept_ok_iff.mp welcomes
  obtain ⟨⟨mid, chainKey⟩, _, decrypts, returns⟩ := bind_ok_iff.mp rest
  obtain ⟨decrypted, rfl⟩ := ofExcept_ok_iff.mp decrypts
  obtain ⟨rfl, rfl⟩ := pure_ok_iff.mp returns
  exact ⟨rfl, ⟨new, welcomed, rfl⟩, mid, chainKey, decrypted, ⟨rfl, rfl, rfl, rfl⟩, rfl⟩

end Handlers

end FullDcgka

end KeyhiveEval.Dcgka
