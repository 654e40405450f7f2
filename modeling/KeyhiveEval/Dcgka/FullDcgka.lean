/-
**The key agreement of a client.**

A client keeps, for every member, the key of a hash chain from which the update secrets of that member are
derived. A create, update or remove carries a seed, encrypted for every recipient; a puncturable pseudorandom
function (`Pprf`) makes one value of it for every member, which moves the chain of the sender at once and the chain
of another member when that member acknowledges the message.

* `State` — the fields of `FullDcgkaProtocol.State`, but for its `StrongRemoveDgm`: all of them are persistent
  values, while the `StrongRemoveDgm` is one object that the methods change in place. A method is therefore a
  computation on that object (`DcgkaM`), which keeps what was done to it when the method throws.
* `process` and one `process…` for every kind of message; `create`, `update`, `remove`, `add` make messages.

The hash, the two-party channels and their randomness are parameters (`Crypto`).
-/

import KeyhiveEval.Dcgka.StrongRemoveDgm
import KeyhiveEval.Dcgka.AckOrderer
import Mathlib.Data.Finset.Sort
import Mathlib.Data.List.Sort

namespace KeyhiveEval.Dcgka

variable {Id Bytes Channel Cipher : Type} [LinearOrder Id]

/-- The cryptography that the protocol calls. A channel between two clients draws its key pairs itself, so its
randomness is part of it. -/
structure Crypto (Id Bytes Channel Cipher : Type) where
  /-- `hash(input, seed)`: the value of a PPRF. -/
  prf : Id → Bytes → Bytes
  /-- `hash("update", chainKey, chainUpdate)`, without the key if there is none. -/
  hashUpdate : Option Bytes → Bytes → Bytes
  /-- `hash("chain", chainKey, chainUpdate)`, without the key if there is none. -/
  hashChain : Option Bytes → Bytes → Bytes
  /-- The bytes of "welcome". -/
  welcome : Bytes
  /-- The bytes of "add". -/
  add : Bytes
  /-- A new `TwoPartyProtocol` of the first client with the second. -/
  connect : Id → Id → Channel
  /-- It throws what the source of the prekey that it needs throws, or the cipher. -/
  encrypt : Channel → Bytes → Except Exc (Channel × Cipher)
  /-- Nothing where the source returns null. -/
  decrypt : Channel → Cipher → Option (Channel × Bytes)

/-! ### Puncturable pseudorandom functions -/

/-- The values that have not been deleted yet. -/
structure Pprf (Id Bytes : Type) where
  values : Id → Option Bytes

namespace Pprf

def new (crypto : Crypto Id Bytes Channel Cipher) (seed : Bytes) (inputs : Finset Id) : Pprf Id Bytes where
  values input := if input ∈ inputs then some (crypto.prf input seed) else none

/-- The function without the value of an input. -/
def puncture (pprf : Pprf Id Bytes) (input : Id) : Pprf Id Bytes where
  values := Function.update pprf.values input none

/-- The value of an input, and the function without it. -/
def popValue (pprf : Pprf Id Bytes) (input : Id) : Except Exc (Pprf Id Bytes × Bytes) :=
  match pprf.values input with
  | none => .error (.illegalArgument "Unrecognized input")
  | some output => .ok (pprf.puncture input, output)

end Pprf

/-! ### Messages and states -/

/-- The secrets that an acknowledgement forwards to users who were added concurrently. -/
abbrev Forwards (Id Cipher : Type) := List (Id × Cipher)

/-- The messages of the protocol. Bytes that are none of them are `malformed`. -/
inductive FullDcgkaMessage (Id Cipher : Type)
  | create (ciphertexts : List Cipher) (idsExcludingSender : List Id)
  | update (ciphertexts : List Cipher)
  | remove (ciphertexts : List Cipher) (removed : Id)
  | add (added : Id)
  | welcome (strongRemoveDgm : StrongRemoveDgm Id) (prfForAdded : Cipher)
  | ack (forwards : Forwards Id Cipher)
  | ackWithUpdate (forwards : Forwards Id Cipher) (ciphertexts : List Cipher)
  | addAck (prfForAdded : Cipher)
  | malformed

inductive DcgkaMessageType
  | welcome
  | update
  | add
  | remove
  | other
deriving DecidableEq

namespace FullDcgka

structure State (Id Bytes Channel : Type) where
  id : Id
  twoPartyProtocols : Id → Option Channel
  pprfs : MessageId Id → Option (Pprf Id Bytes)
  prfPrngs : Id → Option Bytes
  addMessageId : Option (MessageId Id)
  createMessageId : Option (MessageId Id)
  lastAcked : Option (MessageId Id)
  nextSeed : Option Bytes

/-- A method, as a computation on the `StrongRemoveDgm` of the state. -/
abbrev DcgkaM (Id : Type) := EStateM Exc (StrongRemoveDgm Id)

/-- What `process` returns. `newDgm` is the `StrongRemoveDgm` of the new state where that is a new object; otherwise
the new state has the object of the old one. -/
structure ProcessReturn (Id Bytes Channel Cipher : Type) where
  state : State Id Bytes Channel
  newDgm : Option (StrongRemoveDgm Id)
  type : DcgkaMessageType
  responseMessage : Option (FullDcgkaMessage Id Cipher)
  updateSecret : Option Bytes
  target : Option Id
  added : Finset Id
  removed : List Id
  messageId : MessageId Id
  ackedMessageIds : List (MessageId Id)

namespace State

def new (id : Id) : State Id Bytes Channel where
  id
  twoPartyProtocols _ := none
  pprfs _ := none
  prfPrngs _ := none
  addMessageId := none
  createMessageId := none
  lastAcked := none
  nextSeed := none

def putPprf (state : State Id Bytes Channel) (messageId : MessageId Id) (pprf : Pprf Id Bytes) :
    State Id Bytes Channel :=
  { state with pprfs := Function.update state.pprfs messageId (some pprf) }

def putChainKey (state : State Id Bytes Channel) (member : Id) (chainKey : Bytes) : State Id Bytes Channel :=
  { state with prfPrngs := Function.update state.prfPrngs member (some chainKey) }

def putTwoPartyProtocol (state : State Id Bytes Channel) (member : Id) (channel : Channel) :
    State Id Bytes Channel :=
  { state with twoPartyProtocols := Function.update state.twoPartyProtocols member (some channel) }

variable (crypto : Crypto Id Bytes Channel Cipher)

/-- The channel with another client, which is opened on first use. -/
def channel (state : State Id Bytes Channel) (peer : Id) : Channel :=
  (state.twoPartyProtocols peer).getD (crypto.connect state.id peer)

def encryptTo (state : State Id Bytes Channel) (recipient : Id) (plaintext : Option Bytes) :
    Except Exc (State Id Bytes Channel × Cipher) :=
  match plaintext with
  | none => .error .nullPointer
  | some plaintext => do
    let (channel, ciphertext) ← crypto.encrypt (state.channel crypto recipient) plaintext
    return (state.putTwoPartyProtocol recipient channel, ciphertext)

/-- Decrypt what another client has encrypted. The exception names the sender as well. -/
def decryptFrom (state : State Id Bytes Channel) (sender : Id) (ciphertext : Cipher) :
    Except Exc (State Id Bytes Channel × Bytes) :=
  match crypto.decrypt (state.channel crypto sender) ciphertext with
  | none => .error (.illegalArgument "Failed to decrypt TwoPartyProtocol message from")
  | some (channel, plaintext) => .ok (state.putTwoPartyProtocol sender channel, plaintext)

/-- Move the chain of a member, and return the update secret. -/
def prng (state : State Id Bytes Channel) (sender : Id) (chainUpdate : Bytes) : State Id Bytes Channel × Bytes :=
  let chainKey := state.prfPrngs sender
  (state.putChainKey sender (crypto.hashChain chainKey chainUpdate), crypto.hashUpdate chainKey chainUpdate)

/-- Encrypt for each of several clients in turn. -/
def encryptToAll (state : State Id Bytes Channel) (plaintext : Option Bytes) :
    List Id → Except Exc (State Id Bytes Channel × List Cipher)
  | [] => .ok (state, [])
  | recipient :: recipients => do
    let (state, ciphertext) ← state.encryptTo crypto recipient plaintext
    let (state, ciphertexts) ← encryptToAll state plaintext recipients
    return (state, ciphertext :: ciphertexts)

/-- Encrypt a random secret for the recipients in sorted order, without the client itself, and keep it for the
processing of the client's own message. -/
def generateSeedSecret (state : State Id Bytes Channel) (recipients : List Id) (secret : Bytes) :
    Except Exc (State Id Bytes Channel × List Cipher) := do
  let sortedRecipients := recipients.mergeSort fun a b => a ≤ b
  let (state, result) ← state.encryptToAll crypto (some secret) (sortedRecipients.filter (· ≠ state.id))
  return ({ state with nextSeed := some secret }, result)

/-- The client's place among the recipients of a message. -/
def myIndex (state : State Id Bytes Channel) (recipients : Finset Id) (sender : Id) : Nat :=
  (recipients.filter fun member => member ≠ sender ∧ member < state.id).card

/-- The seed of a message: the client's own secret, or what is encrypted for the client if it is a recipient. -/
def receiveSeed (state : State Id Bytes Channel) (recipients : Finset Id) (sender : Id)
    (ciphertexts : List Cipher) : Except Exc (State Id Bytes Channel × Option Bytes) :=
  if sender = state.id then .ok ({ state with nextSeed := none }, state.nextSeed)
  else if state.id ∈ recipients then
    match ciphertexts[state.myIndex recipients sender]? with
    | none => .error .indexOutOfBounds
    | some ciphertext => do
      let (state, seed) ← state.decryptFrom crypto sender ciphertext
      return (state, some seed)
  else .ok (state, none)

/-- Make the PPRF of a seed, and move the chain of the sender by the sender's value. -/
def useSeed (state : State Id Bytes Channel) (view : Finset Id) (sender : Id) (messageId : MessageId Id) :
    Option Bytes → Except Exc (State Id Bytes Channel × Option Bytes)
  | none => .ok (state, none)
  | some seed => do
    let (pprf, chainUpdate) ← (Pprf.new crypto seed view).popValue sender
    let (state, updateSecret) := (state.putPprf messageId pprf).prng crypto sender chainUpdate
    return (state, some updateSecret)

/-- The loop that encrypts the client's own value for the users who were added concurrently. The pop has no effect,
because the returned function is dropped. -/
def forwardTo (messageId : MessageId Id) (state : State Id Bytes Channel) :
    List Id → Except Exc (State Id Bytes Channel × Forwards Id Cipher)
  | [] => .ok (state, [])
  | toForward :: rest => do
    match state.pprfs messageId with
    | none => .error .nullPointer
    | some pprf =>
      let (_, secret) ← pprf.popValue state.id
      let (state, ciphertext) ← state.encryptTo crypto toForward (some secret)
      let (state, forwards) ← forwardTo messageId state rest
      return (state, (toForward, ciphertext) :: forwards)

/-- The acknowledgement of a message of another client, with what it forwards. -/
def makeAck (dgm : StrongRemoveDgm Id) (state : State Id Bytes Channel) (recipients : Finset Id) (sender : Id)
    (messageId : MessageId Id) : Except Exc (State Id Bytes Channel × Option (Forwards Id Cipher)) :=
  if sender = state.id then .ok (state, none)
  else do
    let needsForwarding := if state.id ∈ recipients then (dgm.queryWhole \ recipients).erase sender else ∅
    let (state, forwards) ← forwardTo crypto messageId state (needsForwarding.sort (· ≤ ·))
    return ({ state with lastAcked := some messageId }, some forwards)

/-- Process the seed that a message carries. The recipients should be those that the sender has encrypted for. -/
def processSeedSecret (dgm : StrongRemoveDgm Id) (state : State Id Bytes Channel) (sender : Id)
    (messageId : MessageId Id) (ciphertexts : List Cipher) :
    Except Exc (State Id Bytes Channel × Option (Forwards Id Cipher) × Option Bytes) := do
  let recipients := (dgm.queryView sender).erase sender
  let (state, seed) ← state.receiveSeed crypto recipients sender ciphertexts
  let (state, updateSecret) ← state.useSeed crypto (dgm.queryView sender) sender messageId seed
  let (state, ack) ← makeAck crypto dgm state recipients sender messageId
  return (state, ack, updateSecret)

end State

/-! ### Processing messages -/

variable (crypto : Crypto Id Bytes Channel Cipher)

/-- The order of the clients tells them apart. -/
instance lawfulBEqOfLinearOrder : LawfulBEq Id := inferInstance

def processCreate (state : State Id Bytes Channel) (ciphertexts : List Cipher) (idsExcludingSender : List Id)
    (sender : Id) (causalInfo : Timestamp Id) : DcgkaM Id (ProcessReturn Id Bytes Channel Cipher) := do
  let members := idsExcludingSender ++ [sender]
  if state.id ∉ members then throw (.illegalArgument "Welcome is not for us")
  let dgm := StrongRemoveDgm.new members state.id
  let (state, ack, updateSecret) ←
    ofExcept (State.processSeedSecret crypto dgm state sender causalInfo.messageId ciphertexts)
  return {
    state := { state with createMessageId := some causalInfo.messageId }
    newDgm := some dgm
    type := .welcome
    responseMessage := ack.map .ack
    updateSecret
    target := none
    added := members.toFinset
    removed := []
    messageId := causalInfo.messageId
    ackedMessageIds := [] }

/-- The sender acknowledges a message, to everyone but itself. -/
def noteAck (state : State Id Bytes Channel) (sender : Id) (acked : MessageId Id) (always : Bool) :
    DcgkaM Id (List (MessageId Id)) := do
  if sender = state.id then return []
  let dgm ← get
  -- not so for the creation and for updates
  if always || dgm.isAdd acked || dgm.isRemove acked then StrongRemoveDgm.ack sender acked
  return [acked]

/-- Move the chain of the sender by its value of the PPRF of the acknowledged message. The branch of the source for
a null value, which looks for a forwarded secret, is never taken: `popValue` throws. -/
def State.usePprf (state : State Id Bytes Channel) (sender : Id) (messageId acked : MessageId Id) :
    Except Exc (State Id Bytes Channel × Bytes) :=
  match state.pprfs acked with
  | none => .error (.illegalArgument "No PPRF for acked message")
  | some pprf => do
    let (pprf, chainUpdate) ← pprf.popValue sender
    return (state.putPprf messageId pprf).prng crypto sender chainUpdate

def processAck (state : State Id Bytes Channel) (sender : Id) (causalInfo : Timestamp Id) :
    DcgkaM Id (ProcessReturn Id Bytes Channel Cipher) :=
  match causalInfo.ackedMessageId with
  | none => throw (.illegalArgument "ackedMessageId is null for ack message")
  | some acked => do
    let ackedMessageIds ← noteAck state sender acked false
    let (state, updateSecret) ← ofExcept (state.usePprf crypto sender causalInfo.messageId acked)
    return {
      state
      newDgm := none
      type := .other
      responseMessage := none
      updateSecret := some updateSecret
      target := none
      added := ∅
      removed := []
      messageId := causalInfo.messageId
      ackedMessageIds }

def processUpdate (state : State Id Bytes Channel) (ciphertexts : List Cipher) (sender : Id)
    (causalInfo : Timestamp Id) : DcgkaM Id (ProcessReturn Id Bytes Channel Cipher) := do
  let dgm ← get
  let (state, ack, updateSecret) ←
    ofExcept (State.processSeedSecret crypto dgm state sender causalInfo.messageId ciphertexts)
  return {
    state
    newDgm := none
    type := .update
    responseMessage := ack.map .ack
    updateSecret
    target := none
    added := ∅
    removed := []
    messageId := causalInfo.messageId
    ackedMessageIds := [] }

/-- The acknowledgement of a remove. If there is someone whom the sender takes for a member and the client does not,
it comes with an update under the given secret. -/
def State.respondToRemove (state : State Id Bytes Channel) (dgm : StrongRemoveDgm Id) (sender : Id)
    (ack : Option (Forwards Id Cipher)) (secret : Bytes) :
    Except Exc (State Id Bytes Channel × Option (FullDcgkaMessage Id Cipher)) :=
  if dgm.queryView sender \ dgm.queryWhole = ∅ then .ok (state, ack.map .ack)
  else do
    let (state, ciphertexts) ← state.generateSeedSecret crypto (dgm.queryWholeWithoutMe.sort (· ≤ ·)) secret
    return (state, some (.ackWithUpdate (ack.getD []) ciphertexts))

/-- Process a remove; `secret` is what the random generator gives if an update is needed. -/
def processRemove (state : State Id Bytes Channel) (ciphertexts : List Cipher) (removed : Id) (sender : Id)
    (causalInfo : Timestamp Id) (secret : Bytes) : DcgkaM Id (ProcessReturn Id Bytes Channel Cipher) := do
  let removedCollection ← StrongRemoveDgm.remove sender [removed] causalInfo.messageId
  if state.id ∈ removedCollection then
    return {
      state
      newDgm := none
      type := .remove
      responseMessage := none
      updateSecret := none
      target := some removed
      added := ∅
      removed := removedCollection
      messageId := causalInfo.messageId
      ackedMessageIds := [] }
  let dgm ← get
  let (state, ack, updateSecret) ←
    ofExcept (State.processSeedSecret crypto dgm state sender causalInfo.messageId ciphertexts)
  let (state, responseMessage) ← ofExcept (state.respondToRemove crypto dgm sender ack secret)
  return {
    state
    newDgm := none
    type := .remove
    responseMessage
    updateSecret
    target := some removed
    added := ∅
    removed := removedCollection
    messageId := causalInfo.messageId
    ackedMessageIds := [] }

def processAckWithUpdate (state : State Id Bytes Channel) (ciphertexts : List Cipher) (sender : Id)
    (causalInfo : Timestamp Id) : DcgkaM Id (ProcessReturn Id Bytes Channel Cipher) := do
  let ackResult ← processAck crypto state sender causalInfo
  let updateResult ← processUpdate crypto ackResult.state ciphertexts sender causalInfo
  return { updateResult with ackedMessageIds := ackResult.ackedMessageIds }

/-- Move the chain of the sender of an add twice: for the welcome, which gives the PPRF of the message, and for the
add itself. -/
def State.prngAdd (state : State Id Bytes Channel) (sender : Id) (messageId : MessageId Id) (added : Id) :
    State Id Bytes Channel × Bytes :=
  let (state, welcomeSecret) := state.prng crypto sender crypto.welcome
  (state.putPprf messageId (Pprf.new crypto welcomeSecret {added})).prng crypto sender crypto.add

/-- The client follows the chain of the sender if the sender takes it for a member. -/
def State.followAdd (state : State Id Bytes Channel) (dgm : StrongRemoveDgm Id) (sender : Id)
    (messageId : MessageId Id) (added : Id) : State Id Bytes Channel × Option Bytes :=
  if state.id ∈ dgm.queryView sender then
    let (state, updateSecret) := state.prngAdd crypto sender messageId added
    (state, some updateSecret)
  else (state, none)

/-- The acknowledgement of an add, with the client's own chain key for the added user. -/
def State.respondToAdd (state : State Id Bytes Channel) (added sender : Id) (messageId : MessageId Id) :
    Except Exc (State Id Bytes Channel × Option (FullDcgkaMessage Id Cipher)) :=
  if sender = state.id then .ok (state, none)
  else do
    let (state, prfForAdded) ← state.encryptTo crypto added (state.prfPrngs state.id)
    return ({ state with lastAcked := some messageId }, some (.addAck prfForAdded))

def processAdd (state : State Id Bytes Channel) (added : Id) (sender : Id) (causalInfo : Timestamp Id) :
    DcgkaM Id (ProcessReturn Id Bytes Channel Cipher) := do
  let cancelled ← StrongRemoveDgm.add sender added causalInfo.messageId
  let dgm ← get
  let (state, updateSecret) := state.followAdd crypto dgm sender causalInfo.messageId added
  let (state, responseMessage) ← ofExcept (state.respondToAdd crypto added sender causalInfo.messageId)
  return {
    state
    newDgm := none
    type := .add
    responseMessage
    updateSecret
    target := some added
    added := if cancelled then ∅ else {added}
    removed := []
    messageId := causalInfo.messageId
    ackedMessageIds := [] }

/-- The chain key that the acknowledgement of the client's own add carries. -/
def State.takeChainKey (state : State Id Bytes Channel) (sender : Id) (acked : MessageId Id) (prfForAdded : Cipher) :
    Except Exc (State Id Bytes Channel) :=
  if some acked = state.addMessageId then do
    let (state, chainKey) ← state.decryptFrom crypto sender prfForAdded
    return state.putChainKey sender chainKey
  else .ok state

/-- The client follows the chain of the sender if the sender takes it for a member. -/
def State.followAddAck (state : State Id Bytes Channel) (dgm : StrongRemoveDgm Id) (sender : Id) :
    State Id Bytes Channel × Option Bytes :=
  if state.id ∈ dgm.queryView sender then
    let (state, updateSecret) := state.prng crypto sender crypto.add
    (state, some updateSecret)
  else (state, none)

def processAddAck (state : State Id Bytes Channel) (prfForAdded : Cipher) (sender : Id) (causalInfo : Timestamp Id) :
    DcgkaM Id (ProcessReturn Id Bytes Channel Cipher) :=
  match causalInfo.ackedMessageId with
  | none => throw (.illegalArgument "ackedMessageId is null for add-ack message")
  | some acked => do
    let ackedMessageIds ← noteAck state sender acked true
    let state ← ofExcept (state.takeChainKey crypto sender acked prfForAdded)
    let dgm ← get
    let (state, updateSecret) := state.followAddAck crypto dgm sender
    return {
      state
      newDgm := none
      type := .other
      responseMessage := none
      updateSecret
      target := none
      added := ∅
      removed := []
      messageId := causalInfo.messageId
      ackedMessageIds }

/-- What the added client makes of the copy of the group in its welcome. Whether the add was cancelled is not
looked at. -/
def welcomeDgm (copy : StrongRemoveDgm Id) (id sender : Id) (messageId : MessageId Id) :
    Except Exc (StrongRemoveDgm Id) :=
  match StrongRemoveDgm.add sender id messageId (copy.deserialize id) with
  | .ok _ dgm => .ok dgm
  | .error e _ => .error e

def processWelcome (state : State Id Bytes Channel) (copy : StrongRemoveDgm Id) (prfForAdded : Cipher) (sender : Id)
    (causalInfo : Timestamp Id) : DcgkaM Id (ProcessReturn Id Bytes Channel Cipher) := do
  let dgm ← ofExcept (welcomeDgm copy state.id sender causalInfo.messageId)
  let state := { state with addMessageId := some causalInfo.messageId }
  let (state, chainKey) ← ofExcept (state.decryptFrom crypto sender prfForAdded)
  let (state, updateSecret) :=
    (state.putChainKey sender chainKey).prngAdd crypto sender causalInfo.messageId state.id
  return {
    state := { state with lastAcked := some causalInfo.messageId }
    newDgm := some dgm
    type := .welcome
    responseMessage := some (.ack [])
    updateSecret := some updateSecret
    target := none
    added := dgm.queryWhole
    removed := []
    messageId := causalInfo.messageId
    ackedMessageIds := [] }

def handle (state : State Id Bytes Channel) (message : FullDcgkaMessage Id Cipher) (sender : Id)
    (causalInfo : Timestamp Id) (secret : Bytes) : DcgkaM Id (ProcessReturn Id Bytes Channel Cipher) :=
  match message with
  | .create ciphertexts ids => processCreate crypto state ciphertexts ids sender causalInfo
  | .update ciphertexts => processUpdate crypto state ciphertexts sender causalInfo
  | .remove ciphertexts removed => processRemove crypto state ciphertexts removed sender causalInfo secret
  | .add added => processAdd crypto state added sender causalInfo
  | .welcome copy prfForAdded => processWelcome crypto state copy prfForAdded sender causalInfo
  | .ack _ => processAck crypto state sender causalInfo
  | .ackWithUpdate _ ciphertexts => processAckWithUpdate crypto state ciphertexts sender causalInfo
  | .addAck prfForAdded => processAddAck crypto state prfForAdded sender causalInfo
  | .malformed => throw (.illegalArgument "Unrecognized FullDcgkaMessageType")

/-- What `process` throws in place of an exception of a handler. -/
def rethrown : Exc → Exc
  | .illegalArgument _ => .illegalArgument "Failed to deserialize in process"
  | e => e

def process (state : State Id Bytes Channel) (message : FullDcgkaMessage Id Cipher) (sender : Id)
    (causalInfo : Timestamp Id) (secret : Bytes) : DcgkaM Id (ProcessReturn Id Bytes Channel Cipher) :=
  tryCatch (handle crypto state message sender causalInfo secret) fun e => throw (rethrown e)

/-! ### Making messages -/

def create (state : State Id Bytes Channel) (members : List Id) (secret : Bytes) :
    Except Exc (State Id Bytes Channel × FullDcgkaMessage Id Cipher) := do
  let (state, ciphertexts) ← state.generateSeedSecret crypto members secret
  return (state, .create ciphertexts members)

def update (dgm : StrongRemoveDgm Id) (state : State Id Bytes Channel) (secret : Bytes) :
    Except Exc (State Id Bytes Channel × FullDcgkaMessage Id Cipher) := do
  let (state, ciphertexts) ← state.generateSeedSecret crypto (dgm.queryWholeWithoutMe.sort (· ≤ ·)) secret
  return (state, .update ciphertexts)

def remove (dgm : StrongRemoveDgm Id) (state : State Id Bytes Channel) (removed : Id) (secret : Bytes) :
    Except Exc (State Id Bytes Channel × FullDcgkaMessage Id Cipher) := do
  let recipients := dgm.queryWholeWithoutMe.erase removed
  let (state, ciphertexts) ← state.generateSeedSecret crypto (recipients.sort (· ≤ ·)) secret
  return (state, .remove ciphertexts removed)

/-- Add a user: the welcome for it, and the message for the others. -/
def add (dgm : StrongRemoveDgm Id) (state : State Id Bytes Channel) (added : Id) :
    Except Exc (State Id Bytes Channel × FullDcgkaMessage Id Cipher × FullDcgkaMessage Id Cipher) := do
  let (state, myPrfForAdded) ← state.encryptTo crypto added (state.prfPrngs state.id)
  return (state, .welcome dgm myPrfForAdded, .add added)

/-- The message that the next message of the client acknowledges. Each is only named once. -/
def getOrdererInput (state : State Id Bytes Channel) : State Id Bytes Channel × Option (MessageId Id) :=
  ({ state with lastAcked := none }, state.lastAcked)

end FullDcgka

end KeyhiveEval.Dcgka
