/-
**`keyhive.rs`: the principals of a keyhive.**

A keyhive knows individuals, groups and documents. Principals are shared: the delegate of a delegation is a pointer to a
principal, and two delegations to one identifier may point to different principals, e.g. to an individual and to the
group that the individual was promoted to later.

* `Principal`, `Keyhive` — what is in memory, and what is registered. A hash map is given by its entries, in the order
  in which it is walked.
* `Keyhive.transitiveMembers` — the members of a group or document, through the groups it contains, each with the
  principal that the walk came to last. `Keyhive.explored` says that the walk ends.
-/

import KeyhiveEval.Core.Group
import KeyhiveEval.Core.Prekeys
import Mathlib.Data.Finset.Card

namespace KeyhiveEval.Core

open Std Beekem

/-- The delegation with the most access; of several the last. -/
def NonEmpty.best {T : Type} (dlgs : NonEmpty (SignedDelegation T)) : SignedDelegation T :=
  dlgs.tail.foldl (fun best dlg => if dlg.payload.can < best.payload.can then best else dlg) dlgs.head

/-- Groups and documents have members. -/
def AgentKind.membered : AgentKind → Bool
  | .group | .document => true
  | .active | .individual => false

structure MemberOrder (T : Type) where
  list : Members T → List (Identifier × NonEmpty (SignedDelegation T))
  list_perm : ∀ members, (list members).Perm members.toList

/-- A principal in memory. A group that was promoted from an individual keeps the individual. -/
inductive Principal (T : Type) (keyHash : KeyOp → KeyOpDigest)
  | individual (prekeyOps : CaMap keyHash)
  | group (group : Group T) (indie : Option (CaMap keyHash))

namespace Principal

variable {T : Type} {keyHash : KeyOp → KeyOpDigest}

def members : Principal T keyHash → Members T
  | .individual _ => ∅
  | .group inner _ => inner.members

/-- `Agent::key_ops`. A group has some only if it was promoted. -/
def keyOps : Principal T keyHash → CaMap keyHash
  | .individual prekeyOps => prekeyOps
  | .group _ indie => indie.getD .empty

end Principal

/-- An agent, with the place in memory that it points to. -/
structure AgentRef where
  agent : Agent
  place : Nat
deriving DecidableEq

structure Keyhive (T : Type) (keyHash : KeyOp → KeyOpDigest) where
  memory : ExtTreeMap Nat (Principal T keyHash)
  /-- Where the delegate of a delegation is. -/
  pointsTo : SignedDelegation T → Nat
  active : Identifier × Nat
  individuals : List (Identifier × Nat)
  groups : List (Identifier × Nat)
  docs : List (Identifier × Nat)

namespace Keyhive

variable {T : Type} {keyHash : KeyOp → KeyOpDigest} (order : MemberOrder T) (keyhive : Keyhive T keyHash)

/-- The groups, then the documents. -/
def sources : List (Identifier × Nat) := keyhive.groups ++ keyhive.docs

def membersAt (place : Nat) : Members T := (keyhive.memory[place]?.map Principal.members).getD ∅

def keyOpsAt (place : Nat) : CaMap keyHash := (keyhive.memory[place]?.map Principal.keyOps).getD .empty

def delegate (dlg : SignedDelegation T) : AgentRef := ⟨dlg.payload.delegate, keyhive.pointsTo dlg⟩

/-! ### Transitive members -/

/-- A delegation that is to be followed, with the access of the group it stands in. -/
structure GroupAccess where
  agent : AgentRef
  agentAccess : Access
  parentAccess : Access

/-- The walk: the stack, the delegations that were put on it, and the members noted. -/
structure Walk where
  explore : List GroupAccess
  seen : Finset (Signature × Access)
  caps : ExtTreeMap Identifier (AgentRef × Access)

/-- Put a delegation of a nested group on the stack, if it was not before. -/
def push (bestAccess can : Access) (walk : Walk) (dlg : SignedDelegation T) : Walk :=
  if (dlg.signature, can) ∈ walk.seen then walk
  else { walk with
    seen := insert (dlg.signature, can) walk.seen
    explore := ⟨keyhive.delegate dlg, dlg.payload.can, bestAccess⟩ :: walk.explore }

/-- Note a member of a nested group, and put the delegations to them on the stack. -/
def enter (bestAccess : Access) (walk : Walk) (entry : Identifier × NonEmpty (SignedDelegation T)) : Walk :=
  let dlg := entry.2.best
  entry.2.toList.foldl (keyhive.push bestAccess dlg.payload.can)
    { walk with caps := walk.caps.insert entry.1 (keyhive.delegate dlg, bestAccess) }

/-- The greater of the access noted and the access of a delegation. -/
def bestAccess (caps : ExtTreeMap Identifier (AgentRef × Access)) (id : Identifier) (access : Access) : Access :=
  match caps[id]? with
  | some (_, existing) => max existing access
  | none => access

def visit (root : Identifier) (walk : Walk) (item : GroupAccess) : Walk :=
  let id := item.agent.agent.id
  if id = root then walk
  else
    let best := bestAccess walk.caps id item.agentAccess
    let currentPathAccess := min item.agentAccess item.parentAccess
    let walk := { walk with caps := walk.caps.insert id (item.agent, currentPathAccess) }
    if item.agent.agent.kind.membered then
      (order.list (keyhive.membersAt item.agent.place)).foldl (keyhive.enter best) walk
    else walk

/-- Follow delegations until the stack is empty. -/
def explore (root : Identifier) : Nat → Walk → Walk
  | 0, walk => walk
  | fuel + 1, walk =>
    match walk.explore with
    | [] => walk
    | item :: rest => explore root fuel (keyhive.visit order root { walk with explore := rest } item)

/-- Put the best delegation to a member of the group itself on the stack. -/
def pushOwn (walk : Walk) (entry : Identifier × NonEmpty (SignedDelegation T)) : Walk :=
  let dlg := entry.2.best
  { walk with
    seen := insert (dlg.signature, .admin) walk.seen
    explore := ⟨keyhive.delegate dlg, dlg.payload.can, .admin⟩ :: walk.explore }

def start (place : Nat) : Walk := (order.list (keyhive.membersAt place)).foldl keyhive.pushOwn ⟨[], ∅, ∅⟩

/-- All that the delegations in memory are told apart by. -/
def keys : List (Signature × Access) :=
  keyhive.memory.toList.flatMap fun cell => cell.2.members.toList.flatMap fun entry =>
    entry.2.toList.map fun dlg => (dlg.signature, entry.2.best.payload.can)

/-- As many visits as there are delegations. -/
def enough (place : Nat) : Nat := (order.list (keyhive.membersAt place)).length + keyhive.keys.length

/-- `Group::transitive_members`, of a group or document with its place in memory. -/
def transitiveMembers (source : Identifier × Nat) : ExtTreeMap Identifier (AgentRef × Access) :=
  (keyhive.explore order source.1 (keyhive.enough order source.2) (keyhive.start order source.2)).caps

/-! ### The walk ends -/

/-- What is on the stack, and the delegations that can still be put there. -/
def work (walk : Walk) : Nat := walk.explore.length + (keyhive.keys.toFinset \ walk.seen).card

variable {order keyhive} {dlg : SignedDelegation T}

theorem work_push (best can : Access) (walk : Walk) (known : (dlg.signature, can) ∈ keyhive.keys) :
    keyhive.work (keyhive.push best can walk dlg) ≤ keyhive.work walk := by
  rw [push]
  split
  · exact le_rfl
  · rename_i unseen
    have among : (dlg.signature, can) ∈ keyhive.keys.toFinset \ walk.seen :=
      Finset.mem_sdiff.mpr ⟨List.mem_toFinset.mpr known, unseen⟩
    have fewer := Finset.card_erase_add_one among
    rw [← Finset.sdiff_insert] at fewer
    simp only [work, List.length_cons]
    omega

variable {entry : Identifier × NonEmpty (SignedDelegation T)}

theorem key_mem_keys {place : Nat}
    (listed : entry ∈ order.list (keyhive.membersAt place)) (among : dlg ∈ entry.2.toList) :
    (dlg.signature, entry.2.best.payload.can) ∈ keyhive.keys := by
  rw [(order.list_perm _).mem_iff, membersAt] at listed
  cases cell : keyhive.memory[place]? with
  | none =>
    rw [cell, ExtTreeMap.mem_toList_iff_getElem?_eq_some] at listed
    simp at listed
  | some principal =>
    rw [cell] at listed
    refine List.mem_flatMap.mpr ⟨(place, principal), ExtTreeMap.mem_toList_iff_getElem?_eq_some.mpr cell, ?_⟩
    exact List.mem_flatMap.mpr ⟨entry, listed, List.mem_map_of_mem among⟩

theorem work_enter (best : Access) (walk : Walk)
    (known : ∀ dlg ∈ entry.2.toList, (dlg.signature, entry.2.best.payload.can) ∈ keyhive.keys) :
    keyhive.work (keyhive.enter best walk entry) ≤ keyhive.work walk :=
  List.foldlRecOn (motive := fun later => keyhive.work later ≤ keyhive.work walk) entry.2.toList _ (Nat.le_refl _)
    fun later less dlg among => (work_push best _ later (known dlg among)).trans less

theorem work_visit (root : Identifier) (walk : Walk) (item : GroupAccess) :
    keyhive.work (keyhive.visit order root walk item) ≤ keyhive.work walk := by
  rw [visit]
  split
  · exact le_rfl
  · simp only
    split
    · exact List.foldlRecOn (motive := fun later => keyhive.work later ≤ keyhive.work walk) _ _ (Nat.le_refl _)
        fun later less entry listed =>
          (work_enter _ later fun dlg among => key_mem_keys listed among).trans less
    · exact le_rfl

theorem explore_of_work_le {root : Identifier} {fuel : Nat} {walk : Walk} (enough : keyhive.work walk ≤ fuel) :
    (keyhive.explore order root fuel walk).explore = [] := by
  induction fuel generalizing walk with
  | zero =>
    rw [work] at enough
    rw [explore]
    exact List.eq_nil_of_length_eq_zero (by omega)
  | succ fuel ih =>
    rw [explore]
    split
    · assumption
    · rename_i item rest stack
      refine ih ?_
      have less : keyhive.work (keyhive.visit order root { walk with explore := rest } item) ≤ _ := work_visit root _ item
      have popped : keyhive.work walk = keyhive.work { walk with explore := rest } + 1 := by
        simp only [work, stack, List.length_cons]
        omega
      omega

theorem explored (source : Identifier × Nat) :
    (keyhive.explore order source.1 (keyhive.enough order source.2) (keyhive.start order source.2)).explore = [] := by
  refine explore_of_work_le ?_
  have stacked : (keyhive.start order source.2).explore.length = (order.list (keyhive.membersAt source.2)).length := by
    have grows (entries : List (Identifier × NonEmpty (SignedDelegation T))) (walk : Walk) :
        (entries.foldl keyhive.pushOwn walk).explore.length = entries.length + walk.explore.length := by
      induction entries generalizing walk with
      | nil => simp
      | cons entry entries ih =>
        rw [List.foldl_cons, ih, pushOwn, List.length_cons, List.length_cons]
        omega
    rw [start, grows]
    rfl
  have bound : (keyhive.keys.toFinset \ (keyhive.start order source.2).seen).card ≤ keyhive.keys.length :=
    (Finset.card_le_card Finset.sdiff_subset).trans keyhive.keys.toFinset_card_le
  rw [work, enough, stacked]
  omega

theorem explore_of_nil {root : Identifier} {walk : Walk} (ended : walk.explore = []) (fuel : Nat) :
    keyhive.explore order root fuel walk = walk := by
  cases fuel with
  | zero => rfl
  | succ fuel => rw [explore, ended]

theorem explore_add (root : Identifier) (fuel more : Nat) (walk : Walk) :
    keyhive.explore order root (fuel + more) walk
      = keyhive.explore order root more (keyhive.explore order root fuel walk) := by
  induction fuel generalizing walk with
  | zero => rw [Nat.zero_add, explore]
  | succ fuel ih =>
    cases stack : walk.explore with
    | nil => rw [explore_of_nil stack, explore_of_nil stack, explore_of_nil stack]
    | cons item rest =>
      rw [Nat.succ_add, explore, explore, stack]
      exact ih _

/-- **The walk ends whatever the groups contain**, each other and themselves included: as many visits as there are
delegations leave nothing on the stack, and more of them find nothing more. -/
theorem transitiveMembers_complete (source : Identifier × Nat) (more : Nat) :
    (keyhive.explore order source.1 (keyhive.enough order source.2 + more) (keyhive.start order source.2)).explore = [] ∧
      (keyhive.explore order source.1 (keyhive.enough order source.2 + more) (keyhive.start order source.2)).caps
        = keyhive.transitiveMembers order source := by
  rw [explore_add, explore_of_nil (explored source)]
  exact ⟨explored source, rfl⟩

end Keyhive

end KeyhiveEval.Core
