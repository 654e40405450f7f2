/-
**Messages are delivered once, in causal order, and none is lost.**

The messages of the other clients are queued in any order and any number of times, some of them before the
client is welcomed, while it takes ready messages out and numbers messages of its own.

* `Traffic` — what was sent: a message is determined by its id. `Precedes` — its immediate predecessors.
* `Session` — an orderer and what it has delivered. `Session.Sound` — the invariant: the clock counts what has
  been delivered, every stored message is in its place, and every queued message that is not yet delivered
  is stored.
* `delivers_once_in_causal_order` — the whole statement, for every sequence of calls.
* `delivered_determined` — the order in which messages come in makes no difference.
-/

import KeyhiveEval.Dcgka.AckOrderer
import Mathlib.Data.Finset.Card
import Mathlib.Data.List.Nodup
import Mathlib.Order.RelClasses
import Mathlib.Order.WellFounded
import Mathlib.Data.Fintype.Card
import Mathlib.Data.Fintype.EquivFin
import Mathlib.Data.Fintype.Sets

set_option linter.unusedSectionVars false

namespace KeyhiveEval.Dcgka

variable {Id M : Type} [DecidableEq Id]

/-- **What was sent**: the content of each message, and the message that it acknowledges. -/
structure Traffic (Id M : Type) where
  content : MessageId Id → M
  acked : MessageId Id → Option (MessageId Id)

namespace Traffic

variable (traffic : Traffic Id M)

def timestamp (i : MessageId Id) : Timestamp Id := ⟨i, traffic.acked i, none⟩

/-- A message is the previous one of the same sender, or the acknowledged one. -/
def Precedes (earlier later : MessageId Id) : Prop :=
  earlier.author = later.author ∧ earlier.number + 1 = later.number ∨ traffic.acked later = some earlier

end Traffic

namespace AckOrderer

open Relation

/-- A call of a client that is in the group. -/
inductive Event (Id : Type)
  | queue (i : MessageId Id)
  | getReadyMessage
  | getNextOrderInfo (ack : Option (MessageId Id))

def queuedIn (events : List (Event Id)) : List (MessageId Id) :=
  events.filterMap fun
    | .queue i => some i
    | _ => none

structure Session (Id M : Type) where
  state : State Id M
  delivered : List (Stamped Id M)

namespace Session

variable (traffic : Traffic Id M)

def ids (session : Session Id M) : List (MessageId Id) := session.delivered.map fun entry => entry.2.messageId

def step (session : Session Id M) : Event Id → Except Exc (Session Id M)
  | .queue i => do
    let state ← queue session.state (traffic.content i) i.author (traffic.timestamp i).serialize
    return { session with state }
  | .getReadyMessage => do
    match ← getReadyMessage session.state with
    | none => return session
    | some ready => return ⟨.welcomed ready.nextState, session.delivered ++ [(ready.message, ready.causalInfo)]⟩
  | .getNextOrderInfo ack => do
    let next ← getNextOrderInfo session.state ack
    return { session with state := next.1 }

def run (session : Session Id M) (events : List (Event Id)) : Except Exc (Session Id M) :=
  events.foldlM (step traffic) session

/-- A client queues some messages and is then welcomed. -/
def start (id : Id) (before : List (MessageId Id)) (welcomeInfo : OrderInfo Id) (sender : Id) :
    Except Exc (Session Id M) := do
  let state ← before.foldlM (fun state i =>
    queue state (traffic.content i) i.author (traffic.timestamp i).serialize) (State.new id)
  let welcomed ← processWelcomeInfo state welcomeInfo sender
  return ⟨welcomed.1, []⟩

end Session

/-- **Calls as they come in a group**: the messages are those of others, and a message acknowledges only
messages of the client that it has numbered already. -/
def Admissible (traffic : Traffic Id M) (id : Id) : Nat → List (Event Id) → Prop
  | _, [] => True
  | produced, .queue i :: events =>
    (i.author ≠ id ∧ ∀ acked ∈ traffic.acked i, acked.author = id → acked.number ≤ produced) ∧
      Admissible traffic id produced events
  | produced, .getReadyMessage :: events => Admissible traffic id produced events
  | produced, .getNextOrderInfo _ :: events => Admissible traffic id (produced + 1) events

instance Admissible.decidable (traffic : Traffic Id M) (id : Id) :
    ∀ (produced : Nat) (events : List (Event Id)), Decidable (Admissible traffic id produced events)
  | _, [] => .isTrue trivial
  | produced, .queue _ :: events => @instDecidableAnd _ _ _ (decidable traffic id produced events)
  | produced, .getReadyMessage :: events => decidable traffic id produced events
  | produced, .getNextOrderInfo _ :: events => decidable traffic id (produced + 1) events

/-! ### The invariant -/

/-- What has been delivered before a message: the previous message of its sender, and the message that it
acknowledges, unless they are older than the welcome or the client's own. -/
def InOrder (traffic : Traffic Id M) (id : Id) (clock : VectorClock Id) (delivered : List (Stamped Id M)) :
    Prop :=
  ∀ earlier entry later, delivered = earlier ++ entry :: later →
    ∀ i, traffic.Precedes i entry.2.messageId → i.author ≠ id → clock.get i.author < i.number →
      i ∈ earlier.map fun entry => entry.2.messageId

structure Sound (traffic : Traffic Id M) (id : Id) (welcomeClock : VectorClock Id)
    (queued : List (MessageId Id)) (state : Welcomed Id M) (delivered : List (Stamped Id M)) : Prop where
  owner : state.id = id
  grown : ∀ member, welcomeClock.get member ≤ state.clock.get member
  /-- The clock counts what has been delivered. -/
  counts : ∀ i : MessageId Id, i.author ≠ id →
    (i ∈ (delivered.map fun entry => entry.2.messageId) ↔
      welcomeClock.get i.author < i.number ∧ i.number ≤ state.clock.get i.author)
  once : (delivered.map fun entry => entry.2.messageId).Nodup
  ordered : InOrder traffic id welcomeClock delivered
  filed : Filed state.clock (state.readyMessages, state.unreadyMessages)
  /-- What is stored or has been delivered was queued. -/
  genuine : ∀ entry, Stored (state.readyMessages, state.unreadyMessages) entry ∨ entry ∈ delivered →
    entry.2.messageId ∈ queued ∧ entry = (traffic.content entry.2.messageId, traffic.timestamp entry.2.messageId)
  foreign : ∀ i ∈ queued, i.author ≠ id ∧
    ∀ acked ∈ traffic.acked i, acked.author = id → acked.number ≤ state.clock.get id
  /-- **Nothing is lost.** -/
  covered : ∀ i ∈ queued, state.clock.get i.author < i.number →
    Stored (state.readyMessages, state.unreadyMessages) (traffic.content i, traffic.timestamp i)

section Calls

variable {traffic : Traffic Id M} {id : Id} {welcomeClock : VectorClock Id} {queued : List (MessageId Id)}
  {state : Welcomed Id M} {delivered : List (Stamped Id M)}

theorem sound_welcomed (traffic : Traffic Id M) (id : Id) (welcomeClock : VectorClock Id) :
    Sound traffic id welcomeClock [] ⟨id, welcomeClock, welcomeClock, [], fun _ => []⟩ [] where
  owner := rfl
  grown _ := Nat.le_refl _
  counts i _ := by
    simp only [List.map_nil, List.not_mem_nil, false_iff]
    omega
  once := List.nodup_nil
  ordered earlier entry later empty := by simp at empty
  filed := ⟨by simp, by simp⟩
  genuine entry := by simp [Stored]
  foreign := by simp
  covered := by simp

theorem Sound.store (sound : Sound traffic id welcomeClock queued state delivered) {i : MessageId Id}
    (foreign : i.author ≠ id ∧
      ∀ acked ∈ traffic.acked i, acked.author = id → acked.number ≤ state.clock.get id)
    {ready : List (Stamped Id M)} {unready : MessageId Id → List (Stamped Id M)}
    (filed : Filed state.clock (ready, unready))
    (stored : ∀ other, Stored (ready, unready) other ↔ Stored (state.readyMessages, state.unreadyMessages) other
      ∨ other = (traffic.content i, traffic.timestamp i)) :
    Sound traffic id welcomeClock (queued ++ [i])
      { state with readyMessages := ready, unreadyMessages := unready } delivered where
  owner := sound.owner
  grown := sound.grown
  counts := sound.counts
  once := sound.once
  ordered := sound.ordered
  filed := filed
  genuine entry kept := by
    have old (kept : Stored (state.readyMessages, state.unreadyMessages) entry ∨ entry ∈ delivered) :
        entry.2.messageId ∈ queued ++ [i] ∧ entry = _ :=
      ⟨List.mem_append_left _ (sound.genuine entry kept).1, (sound.genuine entry kept).2⟩
    rcases kept with here | gone
    · rcases (stored entry).mp here with here | rfl
      · exact old (.inl here)
      · exact ⟨List.mem_append_right _ (List.mem_singleton.mpr rfl), rfl⟩
    · exact old (.inr gone)
  foreign j member := by
    rcases List.mem_append.mp member with old | new
    · exact sound.foreign j old
    · rwa [List.mem_singleton.mp new]
  covered j member late := by
    refine (stored _).mpr ?_
    rcases List.mem_append.mp member with old | new
    · exact .inl (sound.covered j old late)
    · exact .inr (by rw [List.mem_singleton.mp new])

theorem Welcomed.clock_queue (state : Welcomed Id M) (message : M) (timestamp : Timestamp Id) :
    (state.queue message timestamp).clock = state.clock := by
  unfold Welcomed.queue
  simp only
  split
  · rfl
  · split
    · rfl
    · split <;> rfl

theorem Sound.queue (sound : Sound traffic id welcomeClock queued state delivered) {i : MessageId Id}
    (foreign : i.author ≠ id ∧
      ∀ acked ∈ traffic.acked i, acked.author = id → acked.number ≤ state.clock.get id) :
    Sound traffic id welcomeClock (queued ++ [i])
      (state.queue (traffic.content i) (traffic.timestamp i)) delivered := by
  unfold Welcomed.queue
  simp only [show (traffic.timestamp i).messageId = i from rfl]
  split
  · rename_i processed
    exact { sound with
      genuine := fun entry kept => ⟨List.mem_append_left _ (sound.genuine entry kept).1,
        (sound.genuine entry kept).2⟩
      foreign := fun j member => by
        rcases List.mem_append.mp member with old | new
        · exact sound.foreign j old
        · rwa [List.mem_singleton.mp new]
      covered := fun j member late => by
        rcases List.mem_append.mp member with old | new
        · exact sound.covered j old late
        · rw [List.mem_singleton.mp new] at late
          omega }
  · rename_i late
    split
    · rename_i ahead
      refine sound.store foreign ⟨sound.filed.ready, fun key entry here => ?_⟩ fun other => stored_putMulti
      rcases mem_putMulti.mp here with old | ⟨rfl, rfl⟩
      · exact sound.filed.unready key entry old
      · refine ⟨?_, .inl rfl⟩
        show state.clock.get i.author < i.number - 1
        omega
    · rename_i next
      have close : ((traffic.content i, traffic.timestamp i) : Stamped Id M).2.messageId.number
          ≤ state.clock.get (traffic.timestamp i).messageId.author + 1 := by
        show i.number ≤ state.clock.get i.author + 1
        omega
      obtain ⟨filed, stored⟩ := sound.filed.place close
      cases missing : missingAck state.clock (traffic.timestamp i) with
      | some acked =>
        simp only [missing] at filed stored
        exact sound.store foreign filed stored
      | none =>
        simp only [missing] at filed stored
        exact sound.store foreign filed stored

theorem Sound.getNextOrderInfo (sound : Sound traffic id welcomeClock queued state delivered)
    (ack : Option (MessageId Id)) :
    Sound traffic id welcomeClock queued (state.getNextOrderInfo ack).1 delivered ∧
      (state.getNextOrderInfo ack).1.clock.get id = state.clock.get id + 1 := by
  have others (other : Id) (different : other ≠ id) :
      (state.clock.increment state.id).get other = state.clock.get other := by
    rw [VectorClock.get_increment, if_neg (sound.owner ▸ different)]
  have grows := state.clock.get_le_increment state.id
  refine ⟨{ sound with
    grown := fun member => (sound.grown member).trans (grows member)
    counts := fun i foreign => ?_
    filed := ⟨fun entry here => ?_, fun key entry here => ?_⟩
    foreign := fun i member => ?_
    covered := fun i member late => ?_ }, ?_⟩
  · show _ ↔ _ ∧ i.number ≤ (state.clock.increment state.id).get i.author
    rw [others _ foreign]
    exact sound.counts i foreign
  · exact (sound.filed.ready entry here).increment _
  · have waits := sound.filed.unready key entry here
    obtain ⟨isQueued, genuine⟩ := sound.genuine entry (.inl (.inr ⟨key, here⟩))
    have foreign := sound.foreign _ isQueued
    have acks : entry.2.ackedMessageId = traffic.acked entry.2.messageId := by
      conv_lhs => rw [genuine]
      rfl
    have notOwn : key.author ≠ id := by
      rcases waits.2 with previous | ⟨acked, -⟩
      · rw [previous]
        exact foreign.1
      · intro own
        have there := foreign.2 key (acks ▸ acked) own
        have missing := waits.1
        rw [own] at missing
        omega
    refine ⟨?_, ?_⟩
    · show (state.clock.increment state.id).get key.author < key.number
      rw [others _ notOwn]
      exact waits.1
    · rcases waits.2 with previous | ⟨acked, next⟩
      · exact .inl previous
      · exact .inr ⟨acked, next.trans (Nat.succ_le_succ (grows _))⟩
  · refine ⟨(sound.foreign i member).1, fun acked acks own => ?_⟩
    exact ((sound.foreign i member).2 acked acks own).trans (grows _)
  · replace late : (state.clock.increment state.id).get i.author < i.number := late
    rw [others _ (sound.foreign i member).1] at late
    exact sound.covered i member late
  · show (state.clock.increment state.id).get id = _
    rw [VectorClock.get_increment, if_pos sound.owner.symm, sound.owner]

theorem InOrder.snoc {entry : Stamped Id M} (ordered : InOrder traffic id welcomeClock delivered)
    (new : ∀ i, traffic.Precedes i entry.2.messageId → i.author ≠ id → welcomeClock.get i.author < i.number →
      i ∈ delivered.map fun entry => entry.2.messageId) :
    InOrder traffic id welcomeClock (delivered ++ [entry]) := by
  intro earlier other later splits
  rcases List.eq_nil_or_concat later with rfl | ⟨later, last, rfl⟩
  · obtain ⟨rfl, same⟩ := List.append_inj' splits rfl
    obtain rfl := List.singleton_inj.mp same
    exact new
  · rw [List.concat_eq_append, ← List.cons_append, ← List.append_assoc] at splits
    exact ordered earlier other later (List.append_inj' splits rfl).1

/-- **Delivering a message.** The duplicates above it in the stack are dropped. -/
theorem Sound.deliver (sound : Sound traffic id welcomeClock queued state delivered)
    {message : Stamped Id M} {above rest : List (Stamped Id M)}
    (stack : state.readyMessages = above ++ message :: rest)
    (duplicates : ∀ entry ∈ above, state.clock.get entry.2.messageId.author ≥ entry.2.messageId.number)
    (isNext : message.2.messageId.number = state.clock.get message.2.messageId.author + 1) :
    Sound traffic id welcomeClock queued (state.deliver message rest) (delivered ++ [message]) := by
  have here : message ∈ state.readyMessages := by simp [stack]
  obtain ⟨isQueued, genuine⟩ := sound.genuine message (.inl (.inl here))
  obtain ⟨fitsNumber, fitsAck⟩ := sound.filed.ready message here
  have foreign := sound.foreign _ isQueued
  generalize identify : message.2.messageId = messageId at *
  let clock := state.clock.increment messageId.author
  have kept : Filed clock (rest, Function.update state.unreadyMessages messageId []) := by
    refine ⟨fun entry member => ?_, fun key entry member => ?_⟩
    · exact (sound.filed.ready entry (by simp [stack, show entry ∈ rest from member])).increment _
    · by_cases same : key = messageId
      · simp [same] at member
      · replace member : entry ∈ Function.update state.unreadyMessages messageId [] key := member
        rw [Function.update_of_ne same] at member
        exact (sound.filed.unready key entry member).increment isNext same
  obtain ⟨filed, stored⟩ := kept.release_all fun entry member =>
    (sound.filed.unready messageId entry member).next isNext
  have deliver : state.deliver message rest = { state with
      clock
      readyMessages := ((state.unreadyMessages messageId).foldl (release clock)
        (rest, Function.update state.unreadyMessages messageId [])).1
      unreadyMessages := ((state.unreadyMessages messageId).foldl (release clock)
        (rest, Function.update state.unreadyMessages messageId [])).2 } := by
    unfold Welcomed.deliver
    rw [identify]
  rw [deliver]
  have fresh : messageId ∉ delivered.map fun entry => entry.2.messageId := by
    rw [sound.counts messageId foreign.1]
    omega
  have grows := state.clock.get_le_increment messageId.author
  refine ⟨sound.owner, fun member => (sound.grown member).trans (grows member), fun i notOwn => ?_, ?_, ?_,
    filed, fun entry isKept => ?_, fun i member => ?_, fun i member late => ?_⟩
  · have grown := sound.grown i.author
    rw [List.map_append, List.mem_append, sound.counts i notOwn]
    simp only [List.map_cons, List.map_nil, List.mem_singleton, identify, clock, VectorClock.get_increment]
    by_cases same : i.author = messageId.author
    · rw [if_pos same]
      have equal : i = messageId ↔ i.number = messageId.number := by
        cases i
        cases messageId
        simp_all
      rw [same] at grown ⊢
      rw [equal]
      omega
    · rw [if_neg same]
      have different : i ≠ messageId := fun equal => same (by rw [equal])
      simp [different]
  · rw [List.map_append, List.nodup_append]
    refine ⟨sound.once, List.nodup_singleton _, fun i old j new => ?_⟩
    simp only [List.map_cons, List.map_nil, List.mem_singleton, identify] at new
    rw [new]
    exact fun same => fresh (same ▸ old)
  · refine sound.ordered.snoc fun i precedes notOwn later => (sound.counts i notOwn).mpr ⟨later, ?_⟩
    rw [identify] at precedes
    rcases precedes with ⟨author, number⟩ | acks
    · rw [author]
      omega
    · have acked : message.2.ackedMessageId = some i := by
        rw [genuine]
        exact acks
      unfold missingAck at fitsAck
      rw [acked] at fitsAck
      simpa using fitsAck
  · rcases isKept with isStored | gone
    · refine sound.genuine entry (.inl ?_)
      rcases (stored entry).mp isStored with (old | ⟨key, old⟩) | ⟨successor, -⟩
      · exact .inl (by simp [stack, show entry ∈ rest from old])
      · by_cases same : key = messageId
        · simp [same] at old
        · replace old : entry ∈ Function.update state.unreadyMessages messageId [] key := old
          rw [Function.update_of_ne same] at old
          exact .inr ⟨key, old⟩
      · exact .inr ⟨messageId, successor⟩
    · rcases List.mem_append.mp gone with old | new
      · exact sound.genuine entry (.inr old)
      · exact sound.genuine entry (.inl (.inl (by rwa [List.mem_singleton.mp new])))
  · exact ⟨(sound.foreign i member).1, fun acked acks own =>
      ((sound.foreign i member).2 acked acks own).trans (grows _)⟩
  · replace late : clock.get i.author < i.number := late
    refine (stored _).mpr ?_
    rcases sound.covered i member (lt_of_le_of_lt (grows _) late) with isReady | ⟨key, waits⟩
    · replace isReady : (traffic.content i, traffic.timestamp i) ∈ above ++ message :: rest := stack ▸ isReady
      rcases List.mem_append.mp isReady with isAbove | isBelow
      · have processed : i.number ≤ state.clock.get i.author := duplicates _ isAbove
        exact absurd late (Nat.not_lt.mpr (processed.trans (grows _)))
      · rcases List.mem_cons.mp isBelow with same | isRest
        · have isMessage : i = messageId := by
            rw [← identify, ← same]
            rfl
          rw [isMessage, VectorClock.get_increment_self] at late
          omega
        · exact .inl (.inl isRest)
    · by_cases same : key = messageId
      · exact .inr ⟨same ▸ waits, late⟩
      · refine .inl (.inr ⟨key, ?_⟩)
        show _ ∈ Function.update state.unreadyMessages messageId [] key
        rwa [Function.update_of_ne same]

/-- **Taking a message out**: the assertion on its number holds, and if there is none then every ready message
is a duplicate. -/
theorem Sound.nextReady (sound : Sound traffic id welcomeClock queued state delivered) :
    (state.nextReady state.readyMessages = .ok none ∧
      ∀ entry ∈ state.readyMessages, state.clock.get entry.2.messageId.author ≥ entry.2.messageId.number) ∨
    ∃ ready, state.nextReady state.readyMessages = .ok (some ready) ∧
      Sound traffic id welcomeClock queued ready.nextState (delivered ++ [(ready.message, ready.causalInfo)]) ∧
      ready.nextState.clock.get id = state.clock.get id := by
  have loop (above rest : List (Stamped Id M)) (stack : state.readyMessages = above ++ rest)
      (duplicates : ∀ entry ∈ above, state.clock.get entry.2.messageId.author ≥ entry.2.messageId.number) :
      (state.nextReady rest = .ok none ∧
        ∀ entry ∈ state.readyMessages, state.clock.get entry.2.messageId.author ≥ entry.2.messageId.number) ∨
      ∃ ready, state.nextReady rest = .ok (some ready) ∧
        Sound traffic id welcomeClock queued ready.nextState (delivered ++ [(ready.message, ready.causalInfo)]) ∧
        ready.nextState.clock.get id = state.clock.get id := by
    induction rest generalizing above with
    | nil =>
      rw [stack, List.append_nil]
      exact .inl ⟨rfl, duplicates⟩
    | cons message rest ih =>
      have here : message ∈ state.readyMessages := by simp [stack]
      have fits := (sound.filed.ready message here).1
      unfold Welcomed.nextReady
      simp only
      split
      · rename_i duplicate
        refine ih (above ++ [message]) (by simp [stack]) fun entry member => ?_
        rcases List.mem_append.mp member with old | new
        · exact duplicates entry old
        · rwa [List.mem_singleton.mp new]
      · rename_i late
        have isNext : message.2.messageId.number = state.clock.get message.2.messageId.author + 1 := by omega
        rw [if_neg (not_not.mpr isNext)]
        refine .inr ⟨_, rfl, sound.deliver stack duplicates isNext, ?_⟩
        have foreign := (sound.foreign _ (sound.genuine message (.inl (.inl here))).1).1
        show (state.clock.increment message.2.messageId.author).get id = _
        rw [VectorClock.get_increment, if_neg foreign.symm]
  exact loop [] state.readyMessages rfl (by simp)

end Calls

/-! ### Runs -/

section Runs

variable {traffic : Traffic Id M} {id : Id} {welcomeClock : VectorClock Id} {queued : List (MessageId Id)}
  {state : Welcomed Id M} {delivered : List (Stamped Id M)} {event : Event Id}

/-- **One call** keeps the invariant, and fails never. -/
theorem Sound.step
    (sound : Sound traffic id welcomeClock queued state delivered)
    (admissible : Admissible traffic id (state.clock.get id) [event]) :
    ∃ state' delivered', Session.step traffic ⟨.welcomed state, delivered⟩ event
        = .ok ⟨.welcomed state', delivered'⟩ ∧
      Sound traffic id welcomeClock (queued ++ queuedIn [event]) state' delivered' ∧
      ∀ events, Admissible traffic id (state.clock.get id) (event :: events) →
        Admissible traffic id (state'.clock.get id) events := by
  cases event with
  | queue i =>
    refine ⟨state.queue (traffic.content i) (traffic.timestamp i), delivered, rfl,
      sound.queue admissible.1, fun events admissible => ?_⟩
    rw [Welcomed.clock_queue]
    exact admissible.2
  | getReadyMessage =>
    have nothing : queued ++ queuedIn [Event.getReadyMessage] = queued := by simp [queuedIn]
    rw [nothing]
    unfold Session.step getReadyMessage
    rcases sound.nextReady with ⟨none, -⟩ | ⟨ready, some, sound', own⟩
    · refine ⟨state, delivered, ?_, sound, fun _ admissible => admissible⟩
      simp only [none]
      rfl
    · refine ⟨ready.nextState, _, ?_, sound', fun _ admissible => ?_⟩
      · simp only [some]
        rfl
      · rw [own]
        exact admissible
  | getNextOrderInfo ack =>
    obtain ⟨sound', own⟩ := sound.getNextOrderInfo ack
    have nothing : queued ++ queuedIn [Event.getNextOrderInfo ack] = queued := by simp [queuedIn]
    rw [nothing]
    refine ⟨_, delivered, rfl, sound', fun _ admissible => ?_⟩
    rw [own]
    exact admissible

theorem queuedIn_cons (event : Event Id) (events : List (Event Id)) :
    queuedIn (event :: events) = queuedIn [event] ++ queuedIn events := by
  unfold queuedIn
  rw [← List.filterMap_append]
  rfl

theorem Admissible.head {events : List (Event Id)} {produced : Nat}
    (admissible : Admissible traffic id produced (event :: events)) :
    Admissible traffic id produced [event] := by
  cases event with
  | queue i => exact ⟨admissible.1, trivial⟩
  | getReadyMessage => trivial
  | getNextOrderInfo ack => trivial

theorem Sound.run {events : List (Event Id)}
    (sound : Sound traffic id welcomeClock queued state delivered)
    (admissible : Admissible traffic id (state.clock.get id) events) :
    ∃ state' delivered', Session.run traffic ⟨.welcomed state, delivered⟩ events
        = .ok ⟨.welcomed state', delivered'⟩ ∧
      Sound traffic id welcomeClock (queued ++ queuedIn events) state' delivered' := by
  induction events generalizing queued state delivered with
  | nil => exact ⟨state, delivered, rfl, by simpa [queuedIn] using sound⟩
  | cons event events ih =>
    obtain ⟨mid, middle, steps, soundMid, after⟩ := sound.step admissible.head
    obtain ⟨state', delivered', runs, sound'⟩ := ih soundMid (after events admissible)
    refine ⟨state', delivered', ?_, ?_⟩
    · unfold Session.run at runs ⊢
      rw [List.foldlM_cons, steps]
      exact runs
    · rwa [queuedIn_cons, ← List.append_assoc]

theorem queue_waiting (traffic : Traffic Id M) (id : Id) (before : List (MessageId Id))
    (waiting : List (M × Id × OrderInfo Id)) :
    before.foldlM (fun state i => queue state (traffic.content i) i.author (traffic.timestamp i).serialize)
        (State.waiting id waiting)
      = .ok (.waiting id (waiting ++ before.map fun i =>
          (traffic.content i, i.author, (traffic.timestamp i).serialize))) := by
  induction before generalizing waiting with
  | nil => simp [pure, Except.pure]
  | cons i before ih =>
    rw [List.foldlM_cons]
    refine (ih _).trans ?_
    simp

variable {before : List (MessageId Id)}

theorem Sound.queueAll
    (sound : Sound traffic id welcomeClock queued state delivered)
    (foreign : ∀ i ∈ before, i.author ≠ id ∧
      ∀ acked ∈ traffic.acked i, acked.author = id → acked.number ≤ state.clock.get id) :
    ∃ state', (before.map fun i => (traffic.content i, i.author, (traffic.timestamp i).serialize)).foldlM
        (fun state queued => AckOrderer.queue state queued.1 queued.2.1 queued.2.2) (State.welcomed state)
        = .ok (State.welcomed state') ∧
      Sound traffic id welcomeClock (queued ++ before) state' delivered ∧ state'.clock = state.clock := by
  induction before generalizing queued state with
  | nil => exact ⟨state, rfl, by rwa [List.append_nil], rfl⟩
  | cons i before ih =>
    have clock := state.clock_queue (traffic.content i) (traffic.timestamp i)
    obtain ⟨state', folds, sound', clock'⟩ :=
      ih (sound.queue (foreign i List.mem_cons_self)) fun j member => by
        rw [clock]
        exact foreign j (List.mem_cons_of_mem _ member)
    refine ⟨state', ?_, ?_, clock'.trans clock⟩
    · rw [List.map_cons, List.foldlM_cons]
      exact folds
    · rwa [List.append_assoc] at sound'

theorem sound_start {welcomeInfo : OrderInfo Id} {sender : Id}
    (welcome : AckOrderer.welcomeClock welcomeInfo sender = .ok welcomeClock)
    (foreign : ∀ i ∈ before, i.author ≠ id ∧
      ∀ acked ∈ traffic.acked i, acked.author = id → acked.number ≤ welcomeClock.get id) :
    ∃ state, Session.start traffic id before welcomeInfo sender = .ok ⟨.welcomed state, []⟩ ∧
      Sound traffic id welcomeClock before state [] ∧ state.clock = welcomeClock := by
  obtain ⟨state, folds, sound, clock⟩ := (sound_welcomed traffic id welcomeClock).queueAll foreign
  refine ⟨state, ?_, sound, clock⟩
  unfold Session.start State.new
  rw [queue_waiting, List.nil_append]
  show (do let welcomed ← processWelcomeInfo _ welcomeInfo sender; return _) = _
  unfold processWelcomeInfo
  rw [welcome]
  show (do let welcomed ← (do let state ← _; return _); return _) = _
  rw [folds]
  rfl

/-! ### Completeness -/

/-- **Nothing is lost.** When no message is ready, every queued message whose predecessors were queued has
been delivered. -/
theorem Sound.complete
    (sound : Sound traffic id welcomeClock queued state delivered)
    (acyclic : ∀ i, ¬ TransGen (fun i j => i ∈ queued ∧ j ∈ queued ∧ traffic.Precedes i j) i i)
    (drained : ∀ entry ∈ state.readyMessages,
      state.clock.get entry.2.messageId.author ≥ entry.2.messageId.number)
    {i : MessageId Id} (member : i ∈ queued) (above : welcomeClock.get i.author < i.number)
    (complete : ∀ j, TransGen traffic.Precedes j i → j.author ≠ id → welcomeClock.get j.author < j.number →
      j ∈ queued) :
    i ∈ delivered.map fun entry => entry.2.messageId := by
  -- induction along the causal order, which is well-founded on the finitely many queued messages
  let before (i j : { i // i ∈ queued }) : Prop :=
    TransGen (fun i j => i ∈ queued ∧ j ∈ queued ∧ traffic.Precedes i j) i.1 j.1
  have transitive : IsTrans _ before := ⟨fun _ _ _ => TransGen.trans⟩
  have irreflexive : Std.Irrefl before := ⟨fun i => acyclic i.1⟩
  have wellFounded : WellFounded before := Finite.wellFounded_of_trans_of_irrefl before
  obtain ⟨i, rfl⟩ : ∃ i' : { i // i ∈ queued }, i'.1 = i := ⟨⟨i, member⟩, rfl⟩
  induction i using wellFounded.induction with
  | _ i ih =>
    have foreign := sound.foreign i.1 member
    rw [sound.counts i.1 foreign.1]
    refine ⟨above, ?_⟩
    by_contra late
    have there (j : MessageId Id) (precedes : traffic.Precedes j i.1) (missing : state.clock.get j.author < j.number) :
        False := by
      have notOwn : j.author ≠ id := by
        intro own
        rcases precedes with ⟨author, -⟩ | acks
        · exact foreign.1 (author ▸ own)
        · have produced := foreign.2 j acks own
          rw [own] at missing
          omega
      have isQueued := complete j (.single precedes) notOwn (lt_of_le_of_lt (sound.grown _) missing)
      have isDelivered := ih ⟨j, isQueued⟩ (.single ⟨isQueued, i.2, precedes⟩) isQueued
        (lt_of_le_of_lt (sound.grown _) missing) fun k earlier => complete k (earlier.tail precedes)
      have := ((sound.counts j notOwn).mp isDelivered).2
      omega
    rcases sound.covered i.1 member (by omega) with isReady | ⟨key, waits⟩
    · exact late (drained _ isReady)
    · obtain ⟨missing, previous | ⟨acks, -⟩⟩ := sound.filed.unready key _ waits
      · refine there key (.inl ⟨by rw [previous]; rfl, ?_⟩) missing
        have number : key.number = i.1.number - 1 := by rw [previous]; rfl
        omega
      · exact there key (.inr acks) missing

theorem Sound.drains
    (sound : Sound traffic id welcomeClock queued state delivered) :
    ∃ (n : Nat) (state' : Welcomed Id M) (delivered' : List (Stamped Id M)),
      Session.run traffic ⟨.welcomed state, delivered⟩ (List.replicate n .getReadyMessage)
        = .ok ⟨.welcomed state', delivered'⟩ ∧
      getReadyMessage (State.welcomed state') = .ok none := by
  -- there are only so many queued messages, and each is delivered once
  generalize left : queued.length - delivered.length = rest
  induction rest using Nat.strong_induction_on generalizing state delivered with
  | _ rest ih =>
    rcases sound.nextReady with ⟨none, -⟩ | ⟨ready, some, sound', -⟩
    · exact ⟨0, state, delivered, rfl, none⟩
    · have bound : delivered.length + 1 ≤ queued.length := by
        have subset : ((delivered ++ [(ready.message, ready.causalInfo)]).map fun entry => entry.2.messageId)
            ⊆ queued := by
          intro i isDelivered
          obtain ⟨entry, member, rfl⟩ := List.mem_map.mp isDelivered
          exact (sound'.genuine entry (.inr member)).1
        simpa using (sound'.once.subperm subset).length_le
      have fewer : queued.length - (delivered ++ [(ready.message, ready.causalInfo)]).length < rest := by
        rw [List.length_append, List.length_singleton]
        omega
      obtain ⟨n, state', delivered', runs, ends⟩ := ih _ fewer sound' rfl
      refine ⟨n + 1, state', delivered', ?_, ends⟩
      unfold Session.run at runs ⊢
      rw [List.replicate_succ, List.foldlM_cons]
      unfold Session.step getReadyMessage
      simp only [some]
      exact runs

/-- **Messages are delivered once, in causal order, and none is lost.** A client queues messages, is welcomed, and
then queues, takes out and numbers messages in any order. No call fails. Every message above the clock of the
welcome is delivered at most once, after the previous message of its sender and the message that it
acknowledges. Taking messages out comes to an end; and when none is left, every queued message all of whose
predecessors were queued has been delivered, unless queued messages follow each other in a circle. -/
theorem delivers_once_in_causal_order {before : List (MessageId Id)} {events : List (Event Id)}
    {welcomeInfo : OrderInfo Id} {sender : Id}
    (welcome : AckOrderer.welcomeClock welcomeInfo sender = .ok welcomeClock)
    (early : ∀ i ∈ before, i.author ≠ id ∧
      ∀ acked ∈ traffic.acked i, acked.author = id → acked.number ≤ welcomeClock.get id)
    (admissible : Admissible traffic id (welcomeClock.get id) events) :
    ∃ first session, Session.start traffic id before welcomeInfo sender = .ok first ∧
      Session.run traffic first events = .ok session ∧
      session.ids.Nodup ∧
      (∀ entry ∈ session.delivered, entry.2.messageId ∈ before ++ queuedIn events ∧
        entry.1 = traffic.content entry.2.messageId ∧
        welcomeClock.get entry.2.messageId.author < entry.2.messageId.number) ∧
      InOrder traffic id welcomeClock session.delivered ∧
      ((∀ i, ¬ TransGen (fun i j => i ∈ before ++ queuedIn events ∧ j ∈ before ++ queuedIn events ∧
          traffic.Precedes i j) i i) → getReadyMessage session.state = .ok none →
        ∀ i ∈ before ++ queuedIn events, welcomeClock.get i.author < i.number →
          (∀ j, TransGen traffic.Precedes j i → j.author ≠ id → welcomeClock.get j.author < j.number →
            j ∈ before ++ queuedIn events) → i ∈ session.ids) ∧
      ∃ n drained, Session.run traffic session (List.replicate n .getReadyMessage) = .ok drained ∧
        getReadyMessage drained.state = .ok none := by
  obtain ⟨state, starts, soundStart, clock⟩ := sound_start welcome early
  obtain ⟨state', delivered, runs, sound⟩ := soundStart.run (clock ▸ admissible)
  obtain ⟨n, last, all, drains, ends⟩ := sound.drains
  refine ⟨_, _, starts, runs, sound.once, fun entry member => ?_, sound.ordered,
    fun acyclic drained i member above complete => ?_, n, _, drains, ends⟩
  · obtain ⟨isQueued, genuine⟩ := sound.genuine entry (.inr member)
    have foreign := (sound.foreign _ isQueued).1
    have counted := (sound.counts _ foreign).mp (List.mem_map_of_mem member)
    refine ⟨isQueued, ?_, counted.1⟩
    conv_lhs => rw [genuine]
  · refine sound.complete acyclic ?_ member above complete
    rcases sound.nextReady with ⟨-, duplicates⟩ | ⟨ready, some, -⟩
    · exact duplicates
    · rw [show getReadyMessage (State.welcomed state') = .ok (Option.some ready) from some] at drained
      simp at drained

/-- Who has queued no less, and has nothing ready, has delivered no less. -/
theorem Sound.catches_up {queued' : List (MessageId Id)} {state' : Welcomed Id M} {delivered' : List (Stamped Id M)}
    (sound : Sound traffic id welcomeClock queued state delivered)
    (sound' : Sound traffic id welcomeClock queued' state' delivered') (more : ∀ i ∈ queued, i ∈ queued')
    (drained : getReadyMessage (.welcomed state') = .ok none) :
    (delivered.map fun entry => entry.2.messageId) ⊆ delivered'.map fun entry => entry.2.messageId := by
  have duplicates : ∀ entry ∈ state'.readyMessages,
      state'.clock.get entry.2.messageId.author ≥ entry.2.messageId.number := by
    rcases sound'.nextReady with ⟨-, duplicates⟩ | ⟨ready, some, -⟩
    · exact duplicates
    · rw [show getReadyMessage (State.welcomed state') = .ok (Option.some ready) from some] at drained
      simp at drained
  -- along the order of delivery: what a message waits for was delivered before it, here and so there
  suffices upTo : ∀ earlier later, delivered = earlier ++ later →
      (earlier.map fun entry => entry.2.messageId) ⊆ delivered'.map fun entry => entry.2.messageId from
    upTo delivered [] (by simp)
  intro earlier
  induction earlier using List.reverseRecOn with
  | nil => simp
  | append_singleton earlier entry ih =>
    intro later split
    rw [List.append_assoc] at split
    have known := ih _ split
    rw [List.map_append, List.append_subset]
    refine ⟨known, List.cons_subset.mpr ⟨?_, List.nil_subset _⟩⟩
    have isDelivered : entry ∈ delivered := by simp [split]
    have isQueued := more _ (sound.genuine entry (.inr isDelivered)).1
    have foreign := sound'.foreign _ isQueued
    have above := ((sound.counts _ foreign.1).mp (List.mem_map_of_mem isDelivered)).1
    by_contra missing
    rw [sound'.counts _ foreign.1, not_and, not_le] at missing
    have there (j : MessageId Id) (precedes : traffic.Precedes j entry.2.messageId)
        (late : state'.clock.get j.author < j.number) : False := by
      have notOwn : j.author ≠ id := by
        intro own
        rcases precedes with ⟨author, -⟩ | acks
        · exact foreign.1 (author ▸ own)
        · have := foreign.2 j acks own
          rw [own] at late
          omega
      have before := sound.ordered _ _ _ split j precedes notOwn (lt_of_le_of_lt (sound'.grown _) late)
      have := ((sound'.counts j notOwn).mp (known before)).2
      omega
    rcases sound'.covered _ isQueued (missing above) with isReady | ⟨key, waits⟩
    · exact absurd (duplicates _ isReady) (not_le.mpr (missing above))
    · obtain ⟨late, previous | ⟨acks, -⟩⟩ := sound'.filed.unready key _ waits
      · refine there key (.inl ⟨by rw [previous]; rfl, ?_⟩) late
        have number : key.number = entry.2.messageId.number - 1 := by rw [previous]; rfl
        omega
      · exact there key (.inr acks) late

/-- **What is delivered does not depend on the order in which messages come in.** Two runs of a client from the same
welcome that have queued the same messages, and have taken out all they can, have delivered the same ones, each once. -/
theorem delivered_determined {before before' : List (MessageId Id)} {events events' : List (Event Id)}
    {welcomeInfo : OrderInfo Id} {sender : Id}
    (welcome : AckOrderer.welcomeClock welcomeInfo sender = .ok welcomeClock)
    (early : ∀ i ∈ before ++ before', i.author ≠ id ∧
      ∀ acked ∈ traffic.acked i, acked.author = id → acked.number ≤ welcomeClock.get id)
    (admissible : Admissible traffic id (welcomeClock.get id) events)
    (admissible' : Admissible traffic id (welcomeClock.get id) events')
    (same : ∀ i, i ∈ before ++ queuedIn events ↔ i ∈ before' ++ queuedIn events') :
    ∃ first first' session session', Session.start traffic id before welcomeInfo sender = .ok first ∧
      Session.start traffic id before' welcomeInfo sender = .ok first' ∧
      Session.run traffic first events = .ok session ∧ Session.run traffic first' events' = .ok session' ∧
      session.ids.Nodup ∧ session'.ids.Nodup ∧
      (getReadyMessage session.state = .ok none → getReadyMessage session'.state = .ok none →
        session.ids.Perm session'.ids) := by
  rw [List.forall_mem_append] at early
  obtain ⟨_, starts, start, clock⟩ := sound_start welcome early.1
  obtain ⟨_, starts', start', clock'⟩ := sound_start welcome early.2
  obtain ⟨_, _, runs, sound⟩ := start.run (clock ▸ admissible)
  obtain ⟨_, _, runs', sound'⟩ := start'.run (clock' ▸ admissible')
  refine ⟨_, _, _, _, starts, starts', runs, runs', sound.once, sound'.once, fun drained drained' => ?_⟩
  have there := sound.catches_up sound' (fun i => (same i).mp) drained'
  have here := sound'.catches_up sound (fun i => (same i).mpr) drained
  exact (List.perm_ext_iff_of_nodup sound.once sound'.once).mpr fun i => ⟨@there i, @here i⟩

end Runs

namespace Sample

/-- Client 2 acknowledges the third message of client 1. -/
def traffic : Traffic Nat String where
  content i := s!"{i.number} of {i.author}"
  acked i := if i = ⟨2, 1⟩ then some ⟨1, 3⟩ else none

/-- Client 0 has the acknowledgement and a duplicate before it has what they follow. -/
def events : List (Event Nat) :=
  [.queue ⟨1, 3⟩, .getReadyMessage, .getNextOrderInfo none, .queue ⟨1, 2⟩, .queue ⟨1, 2⟩, .getReadyMessage,
   .getReadyMessage, .getReadyMessage]

theorem precedes_lt {i j : MessageId Nat} (precedes : traffic.Precedes i j) :
    5 * i.author + i.number < 5 * j.author + j.number := by
  rcases precedes with ⟨author, number⟩ | acks
  · omega
  · unfold traffic at acks
    dsimp only at acks
    split at acks
    · rename_i isAck
      obtain rfl := Option.some.inj acks
      rw [isAck]
      decide
    · simp at acks

theorem path_lt {R : MessageId Nat → MessageId Nat → Prop} (within : ∀ i j, R i j → traffic.Precedes i j)
    {i j : MessageId Nat} (path : TransGen R i j) : 5 * i.author + i.number < 5 * j.author + j.number := by
  induction path with
  | single step => exact precedes_lt (within _ _ step)
  | tail _ step ih => exact ih.trans (precedes_lt (within _ _ step))

/-- The messages that client 0 has queued are delivered once and in causal order, the first of them in any case. -/
theorem delivers_after_reordering : ∃ first session,
    Session.start traffic 0 [⟨2, 1⟩] .null 1 = .ok first ∧ Session.run traffic first events = .ok session ∧
      session.ids.Nodup ∧ InOrder traffic 0 ⟨1, Function.update (fun _ => 0) 1 1⟩ session.delivered ∧
      (getReadyMessage session.state = .ok none → ⟨1, 2⟩ ∈ session.ids) := by
  have welcome : AckOrderer.welcomeClock (.null : OrderInfo Nat) 1
      = .ok ⟨1, Function.update (fun _ => 0) 1 1⟩ := rfl
  have early : ∀ i ∈ [(⟨2, 1⟩ : MessageId Nat)], i.author ≠ 0 ∧ ∀ acked ∈ traffic.acked i, acked.author = 0 →
      acked.number ≤ (⟨1, Function.update (fun _ => 0) 1 1⟩ : VectorClock Nat).get 0 := by decide
  obtain ⟨first, session, starts, runs, once, -, ordered, complete, -⟩ :=
    delivers_once_in_causal_order welcome early (by decide : Admissible traffic 0 _ events)
  refine ⟨first, session, starts, runs, once, ordered, fun drained => ?_⟩
  refine complete (fun i cycle => lt_irrefl _ (path_lt (fun _ _ step => step.2.2) cycle)) drained ⟨1, 2⟩ (by decide)
    (by decide) fun j path other above => ?_
  -- All that precedes the message is not above the clock of the welcome.
  have less := path_lt (fun _ _ => id) path
  obtain ⟨author, number⟩ := j
  obtain rfl : author = 1 := by dsimp only at less other; omega
  have late : 1 < number := above
  dsimp only at less
  omega

def inOrder : List (Event Nat) := [.queue ⟨1, 2⟩, .getReadyMessage, .queue ⟨1, 3⟩, .getReadyMessage]

def reordered : List (Event Nat) :=
  [.queue ⟨1, 3⟩, .getReadyMessage, .queue ⟨1, 2⟩, .queue ⟨1, 2⟩, .getReadyMessage, .getReadyMessage]

/-- Two messages come in order, or reordered and one of them twice. -/
theorem delivers_the_same : ∃ first session session', Session.start traffic 0 [] .null 1 = .ok first ∧
    Session.run traffic first inOrder = .ok session ∧ Session.run traffic first reordered = .ok session' ∧
    session.ids = [⟨1, 2⟩, ⟨1, 3⟩] ∧ session'.ids.Nodup ∧ session.ids.Perm session'.ids := by
  obtain ⟨first, first', session, session', starts, starts', runs, runs', -, once', perm⟩ :=
    @delivered_determined _ _ _ traffic 0 _ [] [] inOrder reordered .null 1 rfl (by decide) (by decide) (by decide)
      fun i => by simp [queuedIn, inOrder, reordered, or_comm]
  cases starts
  cases starts'
  cases runs
  cases runs'
  exact ⟨_, _, _, rfl, rfl, rfl, rfl, once', perm rfl rfl⟩

example : (do
      let first ← Session.start traffic 0 [⟨2, 1⟩] .null 1
      let session ← Session.run traffic first events
      return session.ids) = .ok [⟨1, 2⟩, ⟨1, 3⟩, ⟨2, 1⟩] := rfl

end Sample

end AckOrderer

end KeyhiveEval.Dcgka
