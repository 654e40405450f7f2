/-
**Message ids, vector clocks and exceptions of the key-agreement library.**

A client is named by its identity key, and a message by its author and its number among the messages of
that author. Numbers start at 1, as clocks do at 0. They are `int`s in the library; a group would have to
exchange `2^31` messages of one author before the difference shows.

What a method throws is an `Exc`: `ModularDsgm.process` turns the first two kinds into a rejected message and
lets the others through.
-/

import Mathlib.Logic.Function.Basic

namespace KeyhiveEval.Dcgka

/-- What a method of the library throws. -/
inductive Exc
  | illegalArgument (message : String)
  | illegalState (message : String)
  | nullPointer
  | indexOutOfBounds
  | assertionError
  | runtime (message : String)
deriving DecidableEq, Repr

/-- The kinds that `ModularDsgm.process` catches. -/
def Exc.caught : Exc → Bool
  | illegalArgument _ | illegalState _ => true
  | _ => false

/-- A message, by its author and its number. -/
structure MessageId (Id : Type) where
  author : Id
  number : Nat
deriving DecidableEq, Repr

/-- A vector clock, with the member that has moved it last. An entry that is missing in the map is 0. -/
structure VectorClock (Id : Type) where
  sender : Id
  clock : Id → Nat

namespace VectorClock

variable {Id : Type}

/-- How many messages of a member have been processed. -/
def get (c : VectorClock Id) (member : Id) : Nat := c.clock member

variable [DecidableEq Id]

/-- The clock after one more message of a member. -/
def increment (c : VectorClock Id) (member : Id) : VectorClock Id :=
  ⟨member, Function.update c.clock member (1 + c.get member)⟩

theorem get_increment (c : VectorClock Id) (member other : Id) :
    (c.increment member).get other = if other = member then c.get member + 1 else c.get other := by
  show Function.update c.clock member (1 + c.get member) other = _
  by_cases same : other = member
  · rw [same, Function.update_self, if_pos rfl, Nat.add_comm]
  · rw [Function.update_of_ne same, if_neg same, get]

@[simp] theorem get_increment_self (c : VectorClock Id) (member : Id) :
    (c.increment member).get member = c.get member + 1 := by
  rw [get_increment, if_pos rfl]

theorem get_le_increment (c : VectorClock Id) (member other : Id) :
    c.get other ≤ (c.increment member).get other := by
  rw [get_increment]
  split
  · rename_i same
    rw [same]
    exact Nat.le_succ _
  · exact Nat.le_refl _

end VectorClock

end KeyhiveEval.Dcgka
