/-
**The members of a group.**

Every client keeps its own `StrongRemoveDgm`: who is a member, who was removed, and which of the others have
acknowledged which add and remove. A remove takes effect even if it is concurrent with other operations: it
also removes whoever the removed user has added without the remover knowing.

* `add`, `remove`, `ack` change the object in place, so they are computations that keep the state which they
  have reached when they throw.
* `queryWhole` — the members. `queryView` — the members in the eyes of another client, as far as its
  acknowledgements tell.

A user can only be added once, so an object `MemberInfo` is named by its user, and an object `RemoveInfo` by
the message that has created it. Two things are not seen that way: for a user that is added twice the source has
two objects; and after a remove that throws at its second target, the first one still refers to an object
which the remover has acknowledged, while here nothing is known of the message. The maps from users are lists
without a second entry for a user; their order stands for the order in which the loops of the library happen to
visit them.
-/

import KeyhiveEval.Dcgka.Basic
import KeyhiveEval.Lib.Stateful

namespace KeyhiveEval.Dcgka

variable {Id : Type} [DecidableEq Id]

structure MemberInfo (Id : Type) where
  id : Id
  /-- Who has added this member; nobody if it is an initial one. -/
  adder : Option Id
  /-- The remove messages that have removed this member. -/
  removeMessages : List (MessageId Id)
  /-- Who has acknowledged the message that has added this member. -/
  acks : Finset Id
deriving DecidableEq

structure RemoveInfo (Id : Type) where
  /-- The users that the message removes, also if they had been removed before. -/
  removedUsers : Finset Id
  acks : Finset Id
deriving DecidableEq

structure StrongRemoveDgm (Id : Type) where
  members : List (MemberInfo Id)
  removedMembers : List (MemberInfo Id)
  myId : Id
  addsById : List (MessageId Id × Id)
  removesById : MessageId Id → Option (RemoveInfo Id)

abbrev DgmM (Id : Type) := EStateM Exc (StrongRemoveDgm Id)

namespace MemberInfo

def credit (info : MemberInfo Id) (messageId : MessageId Id) : MemberInfo Id :=
  { info with removeMessages := info.removeMessages ++ [messageId] }

def addAck (info : MemberInfo Id) (acker : Id) : MemberInfo Id :=
  { info with acks := insert acker info.acks }

/-- A user who is added has acknowledged what the adder has. -/
def inherit (adder added : Id) (info : MemberInfo Id) : MemberInfo Id :=
  if adder ∈ info.acks then info.addAck added else info

def find (infos : List (MemberInfo Id)) (id : Id) : Option (MemberInfo Id) :=
  infos.find? fun info => info.id = id

def minus (infos : List (MemberInfo Id)) (id : Id) : List (MemberInfo Id) :=
  infos.filter fun info => info.id ≠ id

/-- A map with the given entry for its user. -/
def put (infos : List (MemberInfo Id)) (info : MemberInfo Id) : List (MemberInfo Id) :=
  minus infos info.id ++ [info]

def update (infos : List (MemberInfo Id)) (id : Id) (change : MemberInfo Id → MemberInfo Id) :
    List (MemberInfo Id) :=
  infos.map fun info => if info.id = id then change info else info

variable {infos : List (MemberInfo Id)} {id : Id} {info : MemberInfo Id}

theorem find_eq_some (found : find infos id = some info) : info ∈ infos ∧ info.id = id :=
  ⟨List.mem_of_find?_eq_some found, by simpa using List.find?_some found⟩

theorem find_eq_none : find infos id = none ↔ ∀ info ∈ infos, info.id ≠ id := by
  unfold find
  simp

theorem mem_minus : info ∈ minus infos id ↔ info ∈ infos ∧ info.id ≠ id := by
  simp [minus]

theorem mem_put {other : MemberInfo Id} :
    other ∈ put infos info ↔ other ∈ infos ∧ other.id ≠ info.id ∨ other = info := by
  simp [put, mem_minus]

end MemberInfo

namespace RemoveInfo

def addAck (info : RemoveInfo Id) (acker : Id) : RemoveInfo Id :=
  { info with acks := insert acker info.acks }

def inherit (adder added : Id) (info : RemoveInfo Id) : RemoveInfo Id :=
  if adder ∈ info.acks then info.addAck added else info

/-- One more user counts as removed by the message. -/
def addRemoved (info : RemoveInfo Id) (user : Id) : RemoveInfo Id :=
  { info with removedUsers := insert user info.removedUsers }

end RemoveInfo

namespace StrongRemoveDgm

open MemberInfo

def new (initialMembers : List Id) (myId : Id) : StrongRemoveDgm Id where
  members := initialMembers.dedup.map fun member => ⟨member, none, [], initialMembers.toFinset⟩
  removedMembers := []
  myId
  addsById := []
  removesById _ := none

def empty (myId : Id) : StrongRemoveDgm Id := new [] myId

/-! ### Adding a user -/

/-- The end of `add`: the added user has the acknowledgements of the adder. -/
def inheritAcks (dgm : StrongRemoveDgm Id) (adder added : Id) (messageId : MessageId Id) : StrongRemoveDgm Id :=
  { dgm with
    members := dgm.members.map (MemberInfo.inherit adder added)
    removedMembers := dgm.removedMembers.map (MemberInfo.inherit adder added)
    removesById := fun id => (dgm.removesById id).map (RemoveInfo.inherit adder added)
    addsById := dgm.addsById.filter (fun entry => entry.1 ≠ messageId) ++ [(messageId, added)] }

def addedInfo (dgm : StrongRemoveDgm Id) (adder added : Id) : MemberInfo Id :=
  ⟨added, some adder, [], {adder, added, dgm.myId}⟩

/-- The adder is still a member, so the add sticks. -/
def addToMembers (dgm : StrongRemoveDgm Id) (adder added : Id) : StrongRemoveDgm Id :=
  { dgm with members := put dgm.members (dgm.addedInfo adder added) }

/-- The adder has been removed concurrently: the messages that have removed it remove the added user as
well. -/
def addToRemoved (dgm : StrongRemoveDgm Id) (adderInfo : MemberInfo Id) (added : Id) : StrongRemoveDgm Id :=
  { dgm with
    removedMembers := put dgm.removedMembers
      { dgm.addedInfo adderInfo.id added with removeMessages := adderInfo.removeMessages }
    removesById := fun id =>
      if id ∈ adderInfo.removeMessages then (dgm.removesById id).map fun info => info.addRemoved added
      else dgm.removesById id }

/-- Add a user. Returns whether the add was cancelled by a concurrent remove. -/
def add (adder added : Id) (messageId : MessageId Id) : DgmM Id Bool := do
  let dgm ← get
  if (find dgm.members adder).isSome then
    set ((dgm.addToMembers adder added).inheritAcks adder added messageId)
    return false
  else
    match find dgm.removedMembers adder with
    | none => throw (.illegalArgument "Unrecognized adder")
    | some adderInfo =>
      set ((dgm.addToRemoved adderInfo added).inheritAcks adder added messageId)
      return true

/-! ### Removing users -/

/-- Remove one of the targets of a message, if needed, and mark it as removed by the message. -/
def markRemoved (messageId : MessageId Id) (returnValue : List Id) (oneRemoved : Id) : DgmM Id (List Id) := do
  let dgm ← get
  match find dgm.members oneRemoved with
  | some memberInfo =>
    set { dgm with
      members := minus dgm.members oneRemoved
      removedMembers := put dgm.removedMembers (memberInfo.credit messageId) }
    return returnValue ++ [oneRemoved]
  | none =>
    if (find dgm.removedMembers oneRemoved).isNone then
      throw (.illegalArgument "Unrecognized target of removal")
    set { dgm with removedMembers := update dgm.removedMembers oneRemoved fun info => info.credit messageId }
    return returnValue

structure Sweep (Id : Type) where
  members : List (MemberInfo Id)
  removedMembers : List (MemberInfo Id)
  removedUsers : Finset Id
  returnValue : List Id
  madeProgress : Bool

/-- A remove message in the loop of `remove`: its id, its sender, and what is known of other removes. -/
structure Removal (Id : Type) where
  remover : Id
  messageId : MessageId Id
  acks : Finset Id
  removesById : MessageId Id → Option (RemoveInfo Id)

namespace Removal

variable (removal : Removal Id)

/-- A user was added by a removed one, and the remover did not know of it. -/
def applies (removedUsers : Finset Id) (info : MemberInfo Id) : Bool :=
  (info.adder.any fun adder => adder ∈ removedUsers) && decide (removal.remover ∉ info.acks)

def sweepMember (sweep : Sweep Id) (info : MemberInfo Id) : Sweep Id :=
  if removal.applies sweep.removedUsers info then
    { sweep with
      removedMembers := put sweep.removedMembers (info.credit removal.messageId)
      removedUsers := insert info.id sweep.removedUsers
      returnValue := sweep.returnValue ++ [info.id]
      madeProgress := true }
  else { sweep with members := sweep.members ++ [info] }

/-- The list of remove messages of a removed user contains this one. Objects are compared by their
contents. -/
def containedIn (removedUsers : Finset Id) (info : MemberInfo Id) : Bool :=
  info.removeMessages.any fun id =>
    id = removal.messageId || removal.removesById id = some ⟨removedUsers, removal.acks⟩

def sweepRemoved (sweep : Sweep Id) (info : MemberInfo Id) : Sweep Id :=
  if removal.applies sweep.removedUsers info && !removal.containedIn sweep.removedUsers info then
    { sweep with
      removedMembers := sweep.removedMembers ++ [info.credit removal.messageId]
      removedUsers := insert info.id sweep.removedUsers
      madeProgress := true }
  else { sweep with removedMembers := sweep.removedMembers ++ [info] }

/-- One pass over the members and one over the removed users. -/
def pass (sweep : Sweep Id) : Sweep Id :=
  let first := sweep.members.foldl removal.sweepMember { sweep with members := [], madeProgress := false }
  first.removedMembers.foldl removal.sweepRemoved { first with removedMembers := [] }

/-- Passes until one makes no progress. Each that does removes one more user, so as many as there are users
are enough. -/
def passes : Nat → Sweep Id → Sweep Id
  | 0, sweep => sweep
  | fuel + 1, sweep =>
    let next := removal.pass sweep
    if next.madeProgress then passes fuel next else next

end Removal

/-- Remove users. Returns the members who are removed by this message. -/
def remove (remover : Id) (removed : List Id) (messageId : MessageId Id) : DgmM Id (List Id) := do
  let returnValue ← removed.foldlM (markRemoved messageId) []
  let dgm ← get
  let acks : Finset Id := {remover, dgm.myId}
  let sweep := Removal.passes ⟨remover, messageId, acks, dgm.removesById⟩
    (dgm.members.length + dgm.removedMembers.length + 1)
    ⟨dgm.members, dgm.removedMembers, removed.toFinset, returnValue, false⟩
  set { dgm with
    members := sweep.members
    removedMembers := sweep.removedMembers
    removesById := Function.update dgm.removesById messageId (some ⟨sweep.removedUsers, acks⟩) }
  return sweep.returnValue

/-! ### Acknowledging -/

def info (dgm : StrongRemoveDgm Id) (user : Id) : Option (MemberInfo Id) :=
  (find dgm.members user).or (find dgm.removedMembers user)

def addedBy (dgm : StrongRemoveDgm Id) (messageId : MessageId Id) : Option Id :=
  (dgm.addsById.find? fun entry => entry.1 = messageId).map Prod.snd

/-- Acknowledge an add or remove. A user cannot acknowledge twice, apart from its own add, nor its own
removal. The exceptions name the message (and the user) as well. -/
def ack (acker : Id) (messageId : MessageId Id) : DgmM Id Unit := do
  let dgm ← get
  match (dgm.addedBy messageId).bind dgm.info with
  | some add =>
    if acker ∈ add.acks then
      unless add.id = acker do throw (.illegalArgument "Already ack'd")
    else
      set { dgm with
        members := update dgm.members add.id fun info => info.addAck acker
        removedMembers := update dgm.removedMembers add.id fun info => info.addAck acker }
  | none =>
    match dgm.removesById messageId with
    | some remove =>
      if acker ∈ remove.acks then throw (.illegalArgument "Already ack'd")
      set { dgm with removesById := Function.update dgm.removesById messageId (some (remove.addAck acker)) }
      if acker ∈ remove.removedUsers then throw (.illegalArgument "Acking their own removal")
    | none => throw (.illegalArgument "Ack'd message not recognized")

/-! ### Queries -/

def queryWhole (dgm : StrongRemoveDgm Id) : Finset Id := (dgm.members.map MemberInfo.id).toFinset

def queryWholeWithoutMe (dgm : StrongRemoveDgm Id) : Finset Id := dgm.queryWhole.erase dgm.myId

/-- The members in the eyes of another client: the members whose add it has acknowledged, and the removed
users none of whose removes it has acknowledged. -/
def queryView (dgm : StrongRemoveDgm Id) (viewer : Id) : Finset Id :=
  if viewer = dgm.myId then dgm.queryWhole
  else
    ((dgm.members.filter fun info => viewer ∈ info.acks).map MemberInfo.id).toFinset ∪
      ((dgm.removedMembers.filter fun info => info.removeMessages.all fun id =>
        (dgm.removesById id).all fun remove => viewer ∉ remove.acks).map MemberInfo.id).toFinset

def isAdd (dgm : StrongRemoveDgm Id) (messageId : MessageId Id) : Bool := (dgm.addedBy messageId).isSome

def isRemove (dgm : StrongRemoveDgm Id) (messageId : MessageId Id) : Bool := (dgm.removesById messageId).isSome

def getMembersAndRemovedMembers (dgm : StrongRemoveDgm Id) : Finset Id :=
  ((dgm.members ++ dgm.removedMembers).map MemberInfo.id).toFinset

/-- What `deserialize` makes of the bytes that `serialize` writes: a copy for another client. A user counts as
removed if some message has removed it, and the adder of a user is the author of its add. -/
def deserialize (dgm : StrongRemoveDgm Id) (myId : Id) : StrongRemoveDgm Id :=
  let infos := (dgm.members ++ dgm.removedMembers).map fun info =>
    { info with adder := (dgm.addsById.find? fun entry => entry.2 = info.id).map fun entry => entry.1.author }
  { members := infos.filter fun info => info.removeMessages.isEmpty
    removedMembers := infos.filter fun info => !info.removeMessages.isEmpty
    myId
    addsById := dgm.addsById
    removesById := dgm.removesById }

end StrongRemoveDgm

end KeyhiveEval.Dcgka
