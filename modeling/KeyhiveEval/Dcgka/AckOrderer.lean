/-
**The orderer of a client.**

A client buffers the messages of the others until their predecessors have been delivered: the previous message
of the same sender, and the message that they acknowledge. Before the client is welcomed to the group it only
collects messages.

* `queue`, `getReadyMessage`, `skipReadyMessage`, `getNextOrderInfo`, `processWelcomeInfo`,
  `getWelcomeInfo` — the methods of `AckOrderer`. The fields of its state are null before or after the
  welcome, so a state is of one of two kinds here.
* `Filed` — what they keep: a ready message is the next one of its sender and what it acknowledges has been
  delivered; a message that waits is filed under a predecessor that is missing.
-/

import KeyhiveEval.Dcgka.Basic
import Mathlib.Order.Basic
import Mathlib.Order.Defs.LinearOrder
import Mathlib.Data.Nat.Basic

namespace KeyhiveEval.Dcgka

variable {Id M : Type} [DecidableEq Id]

/-- The place of a message in the causal order, as its sender states it. -/
structure Timestamp (Id : Type) where
  messageId : MessageId Id
  ackedMessageId : Option (MessageId Id)
  clock : Option (VectorClock Id)

/-- The bytes that a message carries for the orderer, by what can be read from them. -/
inductive OrderInfo (Id : Type)
  | null
  | timestamp (number : Nat) (ack : Option (MessageId Id)) (clock : Option (VectorClock Id))
  | vectorClock (clock : VectorClock Id)
  | malformed

def Timestamp.deserialize (serialized : OrderInfo Id) (sender : Id) : Except Exc (Timestamp Id) :=
  match serialized with
  | .timestamp number ack clock => .ok ⟨⟨sender, number⟩, ack, clock⟩
  | .null => .error .nullPointer
  | _ => .error (.illegalArgument "Failed to deserialize Timestamp")

def Timestamp.serialize (timestamp : Timestamp Id) : OrderInfo Id :=
  .timestamp timestamp.messageId.number timestamp.ackedMessageId timestamp.clock

namespace AckOrderer

abbrev Stamped (Id M : Type) := M × Timestamp Id

/-- The state of the orderer of a client that is in the group. The ready messages are a stack; the others are
filed under the id of an immediate predecessor. -/
structure Welcomed (Id M : Type) where
  id : Id
  clock : VectorClock Id
  welcomeClock : VectorClock Id
  readyMessages : List (Stamped Id M)
  unreadyMessages : MessageId Id → List (Stamped Id M)

inductive State (Id M : Type)
  | waiting (id : Id) (waitingForWelcome : List (M × Id × OrderInfo Id))
  | welcomed (state : Welcomed Id M)

def State.new (id : Id) : State Id M := .waiting id []

/-- Add a value to a map with several values for a key. -/
def putMulti {K V : Type} [DecidableEq K] (map : K → List V) (key : K) (value : V) : K → List V :=
  Function.update map key (map key ++ [value])

/-- The message that a message acknowledges, if it is missing. -/
def missingAck (clock : VectorClock Id) (timestamp : Timestamp Id) : Option (MessageId Id) :=
  timestamp.ackedMessageId.filter fun acked => clock.get acked.author < acked.number

/-- Queue a message with a timestamp, in a group that has been joined. -/
def Welcomed.queue (state : Welcomed Id M) (message : M) (timestamp : Timestamp Id) : Welcomed Id M :=
  let sender := timestamp.messageId.author
  let number := timestamp.messageId.number
  -- processed already, or older than the welcome
  if number ≤ state.clock.get sender then state
  else if state.clock.get sender ≠ number - 1 then
    { state with
      unreadyMessages := putMulti state.unreadyMessages ⟨sender, number - 1⟩ (message, timestamp) }
  else
    match missingAck state.clock timestamp with
    | some acked =>
      { state with unreadyMessages := putMulti state.unreadyMessages acked (message, timestamp) }
    | none => { state with readyMessages := (message, timestamp) :: state.readyMessages }

def queue (state : State Id M) (message : M) (sender : Id) (orderInfo : OrderInfo Id) :
    Except Exc (State Id M) :=
  match state with
  | .waiting id waitingForWelcome => .ok (.waiting id (waitingForWelcome ++ [(message, sender, orderInfo)]))
  | .welcomed state => do
    let timestamp ← Timestamp.deserialize orderInfo sender
    return .welcomed (state.queue message timestamp)

structure ReadyMessage (Id M : Type) where
  nextState : Welcomed Id M
  message : M
  sender : Id
  causalInfo : Timestamp Id

/-- One message that has waited for the message that is delivered: it becomes ready, or is filed under the
message that it acknowledges, unless it is a duplicate. -/
def release (clock : VectorClock Id)
    (stored : List (Stamped Id M) × (MessageId Id → List (Stamped Id M))) (successor : Stamped Id M) :
    List (Stamped Id M) × (MessageId Id → List (Stamped Id M)) :=
  let successorId := successor.2.messageId
  if clock.get successorId.author ≥ successorId.number then stored
  else
    match missingAck clock successor.2 with
    | some acked => (stored.1, putMulti stored.2 acked successor)
    | none => (successor :: stored.1, stored.2)

/-- Deliver a message: move the clock, and see which messages have waited for it. -/
def Welcomed.deliver (state : Welcomed Id M) (message : Stamped Id M)
    (newReadyMessages : List (Stamped Id M)) : Welcomed Id M :=
  let messageId := message.2.messageId
  let clock := state.clock.increment messageId.author
  let stored := (state.unreadyMessages messageId).foldl (release clock)
    (newReadyMessages, Function.update state.unreadyMessages messageId [])
  { state with clock, readyMessages := stored.1, unreadyMessages := stored.2 }

/-- The loop of `getReadyMessage` over the stack of ready messages. -/
def Welcomed.nextReady (state : Welcomed Id M) :
    List (Stamped Id M) → Except Exc (Option (ReadyMessage Id M))
  | [] => .ok none
  | message :: newReadyMessages =>
    let messageId := message.2.messageId
    -- a duplicate of a message that has been delivered
    if state.clock.get messageId.author ≥ messageId.number then state.nextReady newReadyMessages
    else if messageId.number ≠ state.clock.get messageId.author + 1 then .error .assertionError
    else .ok (some ⟨state.deliver message newReadyMessages, message.1, messageId.author, message.2⟩)

/-- The next message to process. The stack is null before the welcome. -/
def getReadyMessage : State Id M → Except Exc (Option (ReadyMessage Id M))
  | .waiting .. => .error .nullPointer
  | .welcomed state => state.nextReady state.readyMessages

/-- The loop of `skipReadyMessage`: drop duplicates, and the first message that is none. -/
def dropReady (clock : VectorClock Id) : List (Stamped Id M) → List (Stamped Id M)
  | [] => []
  | message :: newReadyMessages =>
    if clock.get message.2.messageId.author < message.2.messageId.number then newReadyMessages
    else dropReady clock newReadyMessages

/-- Drop the message that `getReadyMessage` would return. -/
def skipReadyMessage : State Id M → Except Exc (State Id M)
  | .waiting .. => .error .nullPointer
  | .welcomed state =>
    .ok (.welcomed { state with readyMessages := dropReady state.clock state.readyMessages })

def Welcomed.getNextOrderInfo (state : Welcomed Id M) (ack : Option (MessageId Id)) :
    Welcomed Id M × OrderInfo Id × Timestamp Id :=
  let newClock := state.clock.increment state.id
  let timestamp : Timestamp Id := ⟨⟨state.id, newClock.get state.id⟩, ack, none⟩
  ({ state with clock := newClock }, timestamp.serialize, timestamp)

def getNextOrderInfo (state : State Id M) (ack : Option (MessageId Id)) :
    Except Exc (State Id M × OrderInfo Id × Timestamp Id) :=
  match state with
  | .waiting .. => .error .nullPointer
  | .welcomed state =>
    let next := state.getNextOrderInfo ack
    .ok (.welcomed next.1, next.2)

/-- The clock of a welcome. It is null where the group was created with the client as a member. -/
def welcomeClock (welcomeInfo : OrderInfo Id) (sender : Id) : Except Exc (VectorClock Id) :=
  match welcomeInfo with
  | .null => .ok ((⟨sender, fun _ => 0⟩ : VectorClock Id).increment sender)
  | .vectorClock clock => .ok clock
  | _ => .error (.illegalArgument "Failed to deserialize VectorClock")

/-- Join the group, and queue what was queued before. -/
def processWelcomeInfo (state : State Id M) (welcomeInfo : OrderInfo Id) (sender : Id) :
    Except Exc (State Id M × Timestamp Id) := do
  let clock ← welcomeClock welcomeInfo sender
  let messageId : MessageId Id := ⟨sender, clock.get sender⟩
  match state with
  | .welcomed _ => .error .nullPointer
  | .waiting id waitingForWelcome =>
    let state ← waitingForWelcome.foldlM
      (fun state queued => queue state queued.1 queued.2.1 queued.2.2)
      (State.welcomed ⟨id, clock, clock, [], fun _ => []⟩)
    return (state, ⟨messageId, none, some clock⟩)

/-- What an added member needs to join. -/
def getWelcomeInfo : State Id M → Except Exc (OrderInfo Id)
  | .waiting .. => .error .nullPointer
  | .welcomed state => .ok (.vectorClock state.clock)

/-! ### Where messages are kept -/

section Storage

variable {clock : VectorClock Id}

/-- A message that may be delivered: it is not ahead of its sender's messages, and what it acknowledges is
there. -/
def Fits (clock : VectorClock Id) (timestamp : Timestamp Id) : Prop :=
  timestamp.messageId.number ≤ clock.get timestamp.messageId.author + 1 ∧ missingAck clock timestamp = none

/-- A message that waits for a missing one, which is the previous message of its sender or, if only that is
missing, the message that it acknowledges. -/
def WaitsFor (clock : VectorClock Id) (key : MessageId Id) (timestamp : Timestamp Id) : Prop :=
  clock.get key.author < key.number ∧
    (key = ⟨timestamp.messageId.author, timestamp.messageId.number - 1⟩ ∨
      timestamp.ackedMessageId = some key ∧
        timestamp.messageId.number ≤ clock.get timestamp.messageId.author + 1)

/-- A message is kept in one of the two places. -/
def Stored (stored : List (Stamped Id M) × (MessageId Id → List (Stamped Id M))) (entry : Stamped Id M) :
    Prop :=
  entry ∈ stored.1 ∨ ∃ key, entry ∈ stored.2 key

/-- **Every message is in its place.** -/
structure Filed (clock : VectorClock Id)
    (stored : List (Stamped Id M) × (MessageId Id → List (Stamped Id M))) : Prop where
  ready : ∀ entry ∈ stored.1, Fits clock entry.2
  unready : ∀ key, ∀ entry ∈ stored.2 key, WaitsFor clock key entry.2

variable {timestamp : Timestamp Id}

omit [DecidableEq Id] in
theorem missingAck_eq_some {acked : MessageId Id}
    (missing : missingAck clock timestamp = some acked) :
    timestamp.ackedMessageId = some acked ∧ clock.get acked.author < acked.number := by
  obtain ⟨acks, late⟩ := Option.filter_eq_some_iff.mp missing
  exact ⟨acks, by simpa using late⟩

theorem mem_putMulti {K V : Type} [DecidableEq K] {map : K → List V} {key other : K} {value value' : V} :
    value' ∈ putMulti map key value other ↔ value' ∈ map other ∨ other = key ∧ value' = value := by
  unfold putMulti
  by_cases same : other = key
  · subst same
    rw [Function.update_self, List.mem_append, List.mem_singleton]
    simp
  · rw [Function.update_of_ne same]
    simp [same]

variable {key : MessageId Id} {ready : List (Stamped Id M)} {unready : MessageId Id → List (Stamped Id M)}
  {entry : Stamped Id M}

theorem stored_putMulti {value : Stamped Id M} :
    Stored (ready, putMulti unready key value) entry ↔ Stored (ready, unready) entry ∨ entry = value := by
  unfold Stored
  simp only [mem_putMulti]
  constructor
  · rintro (here | ⟨other, here | ⟨-, same⟩⟩)
    · exact .inl (.inl here)
    · exact .inl (.inr ⟨other, here⟩)
    · exact .inr same
  · rintro ((here | ⟨other, here⟩) | same)
    · exact .inl here
    · exact .inr ⟨other, .inl here⟩
    · exact .inr ⟨key, .inr ⟨rfl, same⟩⟩

omit [DecidableEq Id] in
theorem stored_push
    {value : Stamped Id M} :
    Stored (value :: ready, unready) entry ↔ Stored (ready, unready) entry ∨ entry = value := by
  unfold Stored
  rw [List.mem_cons, or_assoc, or_comm]

variable {stored : List (Stamped Id M) × (MessageId Id → List (Stamped Id M))}

/-- A message whose sender's previous messages are there is put where it belongs. -/
theorem Filed.place
    (filed : Filed clock stored)
    (next : entry.2.messageId.number ≤ clock.get entry.2.messageId.author + 1) :
    Filed clock (match missingAck clock entry.2 with
      | some acked => (stored.1, putMulti stored.2 acked entry)
      | none => (entry :: stored.1, stored.2)) ∧
    ∀ other, Stored (match missingAck clock entry.2 with
      | some acked => (stored.1, putMulti stored.2 acked entry)
      | none => (entry :: stored.1, stored.2)) other ↔ Stored stored other ∨ other = entry := by
  cases missing : missingAck clock entry.2 with
  | none =>
    refine ⟨⟨fun other here => ?_, filed.unready⟩, fun other => stored_push⟩
    rcases List.mem_cons.mp here with rfl | old
    · exact ⟨next, missing⟩
    · exact filed.ready other old
  | some acked =>
    obtain ⟨acks, late⟩ := missingAck_eq_some missing
    refine ⟨⟨filed.ready, fun key other here => ?_⟩, fun other => stored_putMulti⟩
    rcases mem_putMulti.mp here with old | ⟨rfl, rfl⟩
    · exact filed.unready key other old
    · exact ⟨late, .inr ⟨acks, next⟩⟩

theorem Filed.release_all {successors : List (Stamped Id M)}
    (next : ∀ entry ∈ successors, entry.2.messageId.number ≤ clock.get entry.2.messageId.author + 1)
    (filed : Filed clock stored) :
    Filed clock (successors.foldl (release clock) stored) ∧
    ∀ other, Stored (successors.foldl (release clock) stored) other ↔ Stored stored other ∨
      other ∈ successors ∧ clock.get other.2.messageId.author < other.2.messageId.number := by
  induction successors generalizing stored with
  | nil => exact ⟨filed, fun other => by simp⟩
  | cons entry rest ih =>
    have nextRest : ∀ entry ∈ rest, entry.2.messageId.number ≤ clock.get entry.2.messageId.author + 1 :=
      fun other here => next other (List.mem_cons_of_mem _ here)
    rw [List.foldl_cons]
    by_cases duplicate : clock.get entry.2.messageId.author ≥ entry.2.messageId.number
    · rw [show release clock stored entry = stored from if_pos duplicate]
      obtain ⟨filed', iff⟩ := ih nextRest filed
      refine ⟨filed', fun other => (iff other).trans (or_congr_right ?_)⟩
      rw [List.mem_cons]
      constructor
      · exact fun ⟨here, late⟩ => ⟨.inr here, late⟩
      · rintro ⟨rfl | here, late⟩
        · exact absurd late (by omega)
        · exact ⟨here, late⟩
    · rw [show release clock stored entry = _ from if_neg duplicate]
      obtain ⟨placed, iffPlaced⟩ := filed.place (next entry List.mem_cons_self)
      obtain ⟨filed', iff⟩ := ih nextRest placed
      refine ⟨filed', fun other => (iff other).trans ?_⟩
      rw [iffPlaced, List.mem_cons, or_assoc]
      refine or_congr_right ⟨?_, ?_⟩
      · rintro (rfl | ⟨here, late⟩)
        · exact ⟨.inl rfl, by omega⟩
        · exact ⟨.inr here, late⟩
      · rintro ⟨rfl | here, late⟩
        · exact .inl rfl
        · exact .inr ⟨here, late⟩

variable {messageId : MessageId Id}

/-- What the successors of a delivered message have missed is only that message. -/
theorem WaitsFor.next
    (waits : WaitsFor clock messageId timestamp) (isNext : messageId.number = clock.get messageId.author + 1) :
    timestamp.messageId.number
      ≤ (clock.increment messageId.author).get timestamp.messageId.author + 1 := by
  rcases waits.2 with rfl | ⟨-, next⟩
  · rw [VectorClock.get_increment_self]
    replace isNext : timestamp.messageId.number - 1 = clock.get timestamp.messageId.author + 1 := isNext
    show _ ≤ clock.get timestamp.messageId.author + 1 + 1
    omega
  · exact next.trans (Nat.succ_le_succ (clock.get_le_increment _ _))

theorem WaitsFor.increment
    (waits : WaitsFor clock key timestamp) (isNext : messageId.number = clock.get messageId.author + 1)
    (other : key ≠ messageId) : WaitsFor (clock.increment messageId.author) key timestamp := by
  refine ⟨?_, waits.2.imp_right fun acked =>
    ⟨acked.1, acked.2.trans (Nat.succ_le_succ (clock.get_le_increment _ _))⟩⟩
  have missing := waits.1
  rw [VectorClock.get_increment]
  split
  · rename_i same
    have different : key.number ≠ messageId.number := fun equal => other (by
      cases key
      cases messageId
      simp_all)
    rw [same] at missing
    omega
  · exact missing

theorem Fits.increment (fits : Fits clock timestamp)
    (author : Id) : Fits (clock.increment author) timestamp := by
  refine ⟨fits.1.trans (Nat.succ_le_succ (clock.get_le_increment _ _)), ?_⟩
  have none := fits.2
  unfold missingAck at none ⊢
  rw [Option.filter_eq_none_iff] at none ⊢
  intro acked acks
  have there := none acked acks
  simp only [decide_eq_true_eq, not_lt] at there ⊢
  exact there.trans (clock.get_le_increment _ _)

end Storage

end AckOrderer

end KeyhiveEval.Dcgka
