/-
**A client of the group.**

`ModularDsgm` puts the layers together: a message is signed, ordered, and then either handed to the key agreement or
decrypted under a key of its sender. A client reacts to most messages of the others with a message of its own, which
it processes at once.

* `process` — one message; null (`none`) if the message is refused. It catches the exceptions of two kinds, and
  throws the others.
* `wrapAndProcess` — make a message and process it. The message of a client itself has no response, so the two
  methods call each other only once.
* `receive` — take what the network brings, and process what has become ready.

As in `FullDcgka`, the state is a persistent value but for its `StrongRemoveDgm`, so a method is a computation on the
object of the state that it is called with. Signatures, the encryption of application messages and the formats are
parameters.
-/

import KeyhiveEval.Dcgka.FullDcgka

namespace KeyhiveEval.Dcgka

variable {Id Bytes Channel Cipher SignatureState EncryptionState : Type} [LinearOrder Id]

/-- A signature protocol. Its random key pairs are part of its state. -/
structure SignatureProtocol (Id Bytes SignatureState : Type) where
  getSignature : SignatureState → Bytes → Bytes
  verify : SignatureState → Bool → Bytes → Id → Bytes → Except Exc Bool
  update : SignatureState → SignatureState × Bytes
  processUpdate : SignatureState → Bytes → Id → Except Exc SignatureState
  processWelcomeInfo : SignatureState → Option Bytes → Id → Except Exc SignatureState

/-- A forward-secure encryption. The key is null for a message without an update secret. -/
structure ForwardSecureEncryptionProtocol (Bytes EncryptionState : Type) where
  init : Option Bytes → EncryptionState
  decrypt : EncryptionState → Bytes → Except Exc (EncryptionState × Option Bytes)

/-- What a message carries: a message of the key agreement, or an application message. -/
inductive Content (Id Bytes Cipher : Type)
  | dcgka (message : FullDcgkaMessage Id Cipher)
  | application (ciphertext : Bytes)

structure ModularMessage (Id Bytes Cipher : Type) where
  isWelcome : Bool
  content : Content Id Bytes Cipher
  orderInfo : OrderInfo Id
  signatureUpdate : Option Bytes

structure SignedMessage (Id Bytes : Type) where
  content : Bytes
  sender : Id
  signature : Bytes

/-- The formats of the messages. Bytes that cannot be read are not a message. -/
structure Format (Id Bytes Cipher : Type) where
  serialize : ModularMessage Id Bytes Cipher → Bytes
  deserialize : Bytes → Option (ModularMessage Id Bytes Cipher)
  serializeSigned : SignedMessage Id Bytes → Bytes
  deserializeSigned : Bytes → Option (SignedMessage Id Bytes)

inductive DgmMessageType
  | welcome
  | add
  | remove
  | update
  | dcgkaOther
  | application
deriving DecidableEq

/-- What the user of the library is told about a processed message. -/
structure MessageEffect (Id Bytes : Type) where
  sender : Id
  type : DgmMessageType
  responseMessage : Option Bytes
  plaintext : Option Bytes
  target : Option Id
  added : Finset Id
  removed : List Id
  messageId : Option (MessageId Id)
  ackedMessageIds : List (MessageId Id)

structure ModularDsgm (Id Bytes Channel Cipher SignatureState EncryptionState : Type) where
  crypto : Crypto Id Bytes Channel Cipher
  forwardSecureEncryption : ForwardSecureEncryptionProtocol Bytes EncryptionState
  signatures : SignatureProtocol Id Bytes SignatureState
  format : Format Id Bytes Cipher

namespace ModularDsgm

/-- The persistent part of a state. The id of the client is that of its `dcgkaState`. -/
structure State (Id Bytes Channel Cipher SignatureState EncryptionState : Type) where
  dcgkaState : FullDcgka.State Id Bytes Channel
  forwardSecureEncryptionStates : Id → Option EncryptionState
  ordererState : AckOrderer.State Id (ModularMessage Id Bytes Cipher × SignedMessage Id Bytes)
  signatureState : SignatureState
  isWelcomed : Bool

namespace State

variable (state : State Id Bytes Channel Cipher SignatureState EncryptionState)

def id : Id := state.dcgkaState.id

def new (id : Id) (signatureState : SignatureState) :
    State Id Bytes Channel Cipher SignatureState EncryptionState where
  dcgkaState := .new id
  forwardSecureEncryptionStates _ := none
  ordererState := .new id
  signatureState
  isWelcomed := false

def putForwardSecureEncryptionProtocol (member : Id) (encryptionState : EncryptionState) :
    State Id Bytes Channel Cipher SignatureState EncryptionState :=
  { state with
    forwardSecureEncryptionStates := Function.update state.forwardSecureEncryptionStates member (some encryptionState) }

end State

/-- What `process` returns. `newDgm` is the `StrongRemoveDgm` of the new state where that is a new object. -/
structure Result (Id Bytes Channel Cipher SignatureState EncryptionState : Type) where
  state : State Id Bytes Channel Cipher SignatureState EncryptionState
  newDgm : Option (StrongRemoveDgm Id)
  effect : MessageEffect Id Bytes

/-- A call on a state whose `StrongRemoveDgm` may be a new object. What the call does to a new object does not
change the object of the old state. -/
def onObject {α : Type} (newDgm : Option (StrongRemoveDgm Id))
    (call : FullDcgka.DcgkaM Id (α × Option (StrongRemoveDgm Id))) :
    FullDcgka.DcgkaM Id (α × Option (StrongRemoveDgm Id)) :=
  match newDgm with
  | none => call
  | some dgm =>
    match call dgm with
    | .ok (a, newer) dgm' => return (a, some (newer.getD dgm'))
    | .error e _ => throw e

variable (dsgm : ModularDsgm Id Bytes Channel Cipher SignatureState EncryptionState)

/-! ### Processing a message -/

/-- The signature of a message of another client. Our own messages are not signed yet. -/
def verified (state : State Id Bytes Channel Cipher SignatureState EncryptionState)
    (message : ModularMessage Id Bytes Cipher) (signed : Option (SignedMessage Id Bytes)) (sender : Id) :
    Except Exc Bool :=
  match signed with
  | none => .ok true
  | some signed =>
    dsgm.signatures.verify state.signatureState message.isWelcome signed.content sender signed.signature

/-- The signature update that comes with a message of another client. -/
def updateSignature (state : State Id Bytes Channel Cipher SignatureState EncryptionState)
    (message : ModularMessage Id Bytes Cipher) (signed : Option (SignedMessage Id Bytes)) (sender : Id) :
    Except Exc (State Id Bytes Channel Cipher SignatureState EncryptionState) :=
  match signed, message.isWelcome, message.signatureUpdate with
  | some _, false, some update => do
    let signatureState ← dsgm.signatures.processUpdate state.signatureState update sender
    return { state with signatureState }
  | _, _, _ => .ok state

/-- Join the group with a welcome, which has its own causal info; or see that another message is from a known sender
and has been ordered. -/
def takeIn (dgm : StrongRemoveDgm Id) (state : State Id Bytes Channel Cipher SignatureState EncryptionState)
    (message : ModularMessage Id Bytes Cipher) (sender : Id) (causalInfo : Option (Timestamp Id)) :
    Except Exc (Option (State Id Bytes Channel Cipher SignatureState EncryptionState × Timestamp Id)) :=
  if message.isWelcome then
    if state.isWelcomed then .ok none
    else do
      let (ordererState, causalInfo) ← AckOrderer.processWelcomeInfo state.ordererState message.orderInfo sender
      let signatureState ←
        dsgm.signatures.processWelcomeInfo state.signatureState message.signatureUpdate sender
      return some ({ state with ordererState, signatureState, isWelcomed := true }, causalInfo)
  else if state.isWelcomed = false then .error .assertionError
  else if sender ∉ dgm.getMembersAndRemovedMembers then .error (.illegalArgument "Unknown sender: ")
  else
    match message.orderInfo, causalInfo with
    | .null, _ => .error (.illegalArgument "orderInfo is null for message not from initial group creation")
    | _, none => .error .nullPointer
    | _, some causalInfo => .ok (some (state, causalInfo))

/-- What `process` does before it looks at the content of a message. Without a signature, the message is our own. -/
def prepare (dgm : StrongRemoveDgm Id) (state : State Id Bytes Channel Cipher SignatureState EncryptionState)
    (message : ModularMessage Id Bytes Cipher) (signed : Option (SignedMessage Id Bytes)) (sender : Id)
    (causalInfo : Option (Timestamp Id)) :
    Except Exc (Option (State Id Bytes Channel Cipher SignatureState EncryptionState × Timestamp Id)) :=
  if signed.isSome ∧ sender = state.id then .ok none
  else if signed.isNone ∧ sender ≠ state.id then .error .assertionError
  else do
    if ← dsgm.verified state message signed sender then
      let state ← dsgm.updateSignature state message signed sender
      dsgm.takeIn dgm state message sender causalInfo
    else return none

def dgmMessageType : DcgkaMessageType → DgmMessageType
  | .welcome => .welcome
  | .add => .add
  | .remove => .remove
  | .update => .update
  | .other => .dcgkaOther

/-- What is told about a message of the key agreement. -/
def dcgkaEffect (result : FullDcgka.ProcessReturn Id Bytes Channel Cipher) (sender : Id)
    (responseMessage : Option Bytes) : MessageEffect Id Bytes where
  sender
  type := dgmMessageType result.type
  responseMessage
  plaintext := none
  target := result.target
  added := result.added
  removed := result.removed
  messageId := some result.messageId
  ackedMessageIds := result.ackedMessageIds

/-- A method that sends a response of the key agreement. -/
abbrev Respond (Id Bytes Channel Cipher SignatureState EncryptionState : Type) :=
  State Id Bytes Channel Cipher SignatureState EncryptionState → FullDcgkaMessage Id Cipher →
    FullDcgka.DcgkaM Id
      ((State Id Bytes Channel Cipher SignatureState EncryptionState × Bytes) × Option (StrongRemoveDgm Id))

/-- Process a message of the key agreement, and respond to it. The update secret is the key of a new epoch of the
sender. -/
def processDcgka (respond : Respond Id Bytes Channel Cipher SignatureState EncryptionState)
    (state : State Id Bytes Channel Cipher SignatureState EncryptionState) (message : FullDcgkaMessage Id Cipher)
    (isOwn : Bool) (sender : Id) (causalInfo : Timestamp Id) (secret : Bytes) :
    FullDcgka.DcgkaM Id (Result Id Bytes Channel Cipher SignatureState EncryptionState) := do
  let result ← FullDcgka.process dsgm.crypto state.dcgkaState message sender causalInfo secret
  let state := { state with dcgkaState := result.state }.putForwardSecureEncryptionProtocol sender
    (dsgm.forwardSecureEncryption.init result.updateSecret)
  match result.responseMessage with
  | none => return ⟨state, result.newDgm, dcgkaEffect result sender none⟩
  | some response =>
    if isOwn then throw .assertionError
    let ((state, responseMessage), newDgm) ← onObject result.newDgm (respond state response)
    return ⟨state, newDgm, dcgkaEffect result sender (some responseMessage)⟩

def processApplication (state : State Id Bytes Channel Cipher SignatureState EncryptionState) (ciphertext : Bytes)
    (isOwn : Bool) (sender : Id) :
    Except Exc (Option (Result Id Bytes Channel Cipher SignatureState EncryptionState)) :=
  if isOwn then .error .assertionError
  else
    match state.forwardSecureEncryptionStates sender with
    | none => .ok none
    | some encryptionState => do
      match ← dsgm.forwardSecureEncryption.decrypt encryptionState ciphertext with
      | (_, none) => return none
      | (encryptionState, some plaintext) =>
        return some {
          state := state.putForwardSecureEncryptionProtocol sender encryptionState
          newDgm := none
          effect := {
            sender
            type := .application
            responseMessage := none
            plaintext := some plaintext
            target := none
            added := ∅
            removed := []
            messageId := none
            ackedMessageIds := [] } }

def processBody (respond : Respond Id Bytes Channel Cipher SignatureState EncryptionState)
    (state : State Id Bytes Channel Cipher SignatureState EncryptionState) (message : ModularMessage Id Bytes Cipher)
    (signed : Option (SignedMessage Id Bytes)) (sender : Id) (causalInfo : Option (Timestamp Id)) (secret : Bytes) :
    FullDcgka.DcgkaM Id (Option (Result Id Bytes Channel Cipher SignatureState EncryptionState)) := do
  let dgm ← get
  match ← ofExcept (dsgm.prepare dgm state message signed sender causalInfo) with
  | none => return none
  | some (state, causalInfo) =>
    match message.content with
    | .dcgka content => some <$> dsgm.processDcgka respond state content signed.isNone sender causalInfo secret
    | .application ciphertext => ofExcept (dsgm.processApplication state ciphertext signed.isNone sender)

/-- `process`, with the method that sends responses as a parameter. -/
def processWith (respond : Respond Id Bytes Channel Cipher SignatureState EncryptionState)
    (state : State Id Bytes Channel Cipher SignatureState EncryptionState) (message : ModularMessage Id Bytes Cipher)
    (signed : Option (SignedMessage Id Bytes)) (sender : Id) (causalInfo : Option (Timestamp Id)) (secret : Bytes) :
    FullDcgka.DcgkaM Id (Option (Result Id Bytes Channel Cipher SignatureState EncryptionState)) :=
  tryCatch (dsgm.processBody respond state message signed sender causalInfo secret)
    fun e => if e.caught then return none else throw e

/-- Sign a message of our own, with the key before a signature update that it may bring. -/
def sign (state : State Id Bytes Channel Cipher SignatureState EncryptionState)
    (modular : ModularMessage Id Bytes Cipher) (updateSignature : Bool) :
    State Id Bytes Channel Cipher SignatureState EncryptionState × Bytes :=
  let originalSignatureState := state.signatureState
  let (state, modular) :=
    if updateSignature then
      let (signatureState, update) := dsgm.signatures.update state.signatureState
      ({ state with signatureState }, { modular with signatureUpdate := some update })
    else (state, modular)
  let toSign := dsgm.format.serialize modular
  (state, dsgm.format.serializeSigned
    ⟨toSign, state.id, dsgm.signatures.getSignature originalSignatureState toSign⟩)

/-- Make a message, and process it if it is one of the key agreement. No response is asked for. -/
def wrapAndProcess (state : State Id Bytes Channel Cipher SignatureState EncryptionState)
    (content : Content Id Bytes Cipher) (updateSignature : Bool) (secret : Bytes) :
    FullDcgka.DcgkaM Id
      ((State Id Bytes Channel Cipher SignatureState EncryptionState × Bytes) × Option (StrongRemoveDgm Id)) := do
  let (dcgkaState, acked) := FullDcgka.getOrdererInput state.dcgkaState
  let (ordererState, orderInfo, timestamp) ← ofExcept (AckOrderer.getNextOrderInfo state.ordererState acked)
  let state := { state with dcgkaState, ordererState }
  let modular := ⟨false, content, orderInfo, none⟩
  match content with
  | .application _ => return (dsgm.sign state modular updateSignature, none)
  | .dcgka _ =>
    match ← dsgm.processWith (fun _ _ => throw .assertionError) state modular none state.id (some timestamp) secret with
    | none => throw (.runtime "process failed in wrapAndProcess")
    | some result => return (dsgm.sign result.state modular updateSignature, result.newDgm)

/-- Process a message; `secret` is what the random generator gives if an update is needed. -/
def process (state : State Id Bytes Channel Cipher SignatureState EncryptionState)
    (message : ModularMessage Id Bytes Cipher) (signed : Option (SignedMessage Id Bytes)) (sender : Id)
    (causalInfo : Option (Timestamp Id)) (secret : Bytes) :
    FullDcgka.DcgkaM Id (Option (Result Id Bytes Channel Cipher SignatureState EncryptionState)) :=
  dsgm.processWith (fun state response => dsgm.wrapAndProcess state (.dcgka response) false secret)
    state message signed sender causalInfo secret

/-! ### Receiving -/

/-- One round of the loop of `receive`. If the message is refused, or has removed us, the old state goes on without
the message. -/
def receiveReady (state : State Id Bytes Channel Cipher SignatureState EncryptionState)
    (ready : AckOrderer.ReadyMessage Id (ModularMessage Id Bytes Cipher × SignedMessage Id Bytes)) (secret : Bytes) :
    FullDcgka.DcgkaM Id
      ((State Id Bytes Channel Cipher SignatureState EncryptionState × List (MessageEffect Id Bytes)) ×
        Option (StrongRemoveDgm Id)) := do
  let result ← dsgm.process { state with ordererState := .welcomed ready.nextState } ready.message.1
    (some ready.message.2) ready.sender (some ready.causalInfo) secret
  match result with
  | none =>
    let ordererState ← ofExcept (AckOrderer.skipReadyMessage state.ordererState)
    return (({ state with ordererState }, []), none)
  | some result =>
    if state.id ∈ result.effect.removed then
      let ordererState ← ofExcept (AckOrderer.skipReadyMessage state.ordererState)
      return (({ state with ordererState }, [result.effect]), none)
    else return ((result.state, [result.effect]), result.newDgm)

/-- The loop of `receive`, with a secret for every round. The orderer has only finitely many messages, so a long
enough list never ends the loop. -/
def receiveAll : List Bytes → State Id Bytes Channel Cipher SignatureState EncryptionState →
    FullDcgka.DcgkaM Id
      ((State Id Bytes Channel Cipher SignatureState EncryptionState × List (MessageEffect Id Bytes)) ×
        Option (StrongRemoveDgm Id))
  | [], state => return ((state, []), none)
  | secret :: secrets, state => do
    match ← ofExcept (AckOrderer.getReadyMessage state.ordererState) with
    | none => return ((state, []), none)
    | some ready =>
      let ((state, effects), newDgm) ← dsgm.receiveReady state ready secret
      let ((state, later), newDgm) ← onObject newDgm (receiveAll secrets state)
      return ((state, effects ++ later), newDgm)

/-- The messages that have become ready, if the client is in the group. -/
def receiveWelcomed (state : State Id Bytes Channel Cipher SignatureState EncryptionState) (secrets : List Bytes) :
    FullDcgka.DcgkaM Id
      ((State Id Bytes Channel Cipher SignatureState EncryptionState × List (MessageEffect Id Bytes)) ×
        Option (StrongRemoveDgm Id)) :=
  if state.isWelcomed then dsgm.receiveAll secrets state else return ((state, []), none)

def receive (state : State Id Bytes Channel Cipher SignatureState EncryptionState) (message : Bytes) (secret : Bytes)
    (secrets : List Bytes) :
    FullDcgka.DcgkaM Id
      ((State Id Bytes Channel Cipher SignatureState EncryptionState × List (MessageEffect Id Bytes)) ×
        Option (StrongRemoveDgm Id)) :=
  match dsgm.format.deserializeSigned message with
  | none => return ((state, []), none)
  | some signed =>
    match dsgm.format.deserialize signed.content with
    | none => return ((state, []), none)
    | some modular =>
      if modular.isWelcome then do
        match ← dsgm.process state modular (some signed) signed.sender none secret with
        | none => return ((state, []), none)
        | some result =>
          let ((state, effects), newDgm) ← onObject result.newDgm (dsgm.receiveWelcomed result.state secrets)
          return ((state, result.effect :: effects), newDgm)
      else do
        let ordererState ←
          ofExcept (AckOrderer.queue state.ordererState (modular, signed) signed.sender modular.orderInfo)
        dsgm.receiveWelcomed { state with ordererState } secrets

end ModularDsgm

end KeyhiveEval.Dcgka
