/-
**`proposal_store.rs`: which of the received proposals a commit takes.**

Of the proposals that concern one leaf (its own updates and its own removal, and the removals of it) a commit takes
one. `filter_proposals` compares each of them with the one that it has for the leaf.

* `ProposalQueue.filterProposals` — the filter, for any order in which the hash map of the leaves is walked.
* `winner` — the proposal that a commit should take for a leaf.
* `Filtering` — the invariant of the loop; `Filtering.step` is its step.
* `filterProposals_follows_rules` — what a commit takes, if references tell proposals apart.

In a release build `has_lower_priority_than` gives the right answer throughout. In a debug build it panics when a leaf
that asked for its own removal is later removed or updated; the model notes that the assertion was reached
(`assertionReached`), and `filterProposals_asserts` is such a case.
-/

import KeyhiveEval.Lib.Stateful

namespace KeyhiveEval.Mls

open Stateful

/-! ### Proposals -/

/-- A proposal. `Content` is what the filter does not look at. -/
inductive Proposal (Content : Type)
  | add (content : Content)
  | update (content : Content)
  | remove (removed : Nat)
  | preSharedKey (content : Content)
  | reInit (content : Content)
  | externalInit (content : Content)
  | groupContextExtensions (content : Content)
  | selfRemove
  | custom (content : Content)
deriving DecidableEq

inductive Sender
  | member (leaf : Nat)
  | external (index : Nat)
  | newMemberProposal
  | newMemberCommit
deriving DecidableEq

/-- Whether a commit carries the proposal or refers to it. -/
inductive ProposalOrRefType
  | proposal
  | reference
deriving DecidableEq

structure QueuedProposal (Ref Content : Type) where
  proposal : Proposal Content
  proposalReference : Ref
  sender : Sender
  proposalOrRefType : ProposalOrRefType
deriving DecidableEq

variable {Ref Content : Type}

/-- Whether a new proposal for a leaf replaces the one that there is, and whether the debug assertion is reached. -/
def Proposal.hasLowerPriorityThan : Proposal Content → Proposal Content → Bool × Bool
  | .update _, _ => (true, false)
  | .remove _, .update _ => (false, false)
  | .remove _, .remove _ => (true, false)
  | _, .selfRemove => (true, false)
  | _, _ => (false, true)

/-! ### What a commit should take -/

namespace QueuedProposal

variable (leaf : Nat) (queued : QueuedProposal Ref Content)

/-- The removal that a leaf asks for itself. -/
def isSelfRemoveOf : Bool :=
  match queued.proposal, queued.sender with
  | .selfRemove, .member sender => sender == leaf
  | _, _ => false

def isRemoveOf : Bool :=
  match queued.proposal with
  | .remove removed => removed == leaf
  | _ => false

def isUpdateOf : Bool :=
  match queued.proposal, queued.sender with
  | .update _, .member sender => sender == leaf
  | _, _ => false

def concerns : Bool := queued.isSelfRemoveOf leaf || queued.isRemoveOf leaf || queued.isUpdateOf leaf

def isAdd : Bool :=
  match queued.proposal with
  | .add _ => true
  | _ => false

def isExternalInit : Bool :=
  match queued.proposal with
  | .externalInit _ => true
  | _ => false

/-- The proposals that are taken besides adds, whatever else there is. -/
def isAlwaysValid : Bool :=
  match queued.proposal with
  | .preSharedKey _ | .groupContextExtensions _ | .custom _ => true
  | _ => false

end QueuedProposal

open QueuedProposal

def lastWith {α : Type} (p : α → Bool) (list : List α) : Option α := list.reverse.find? p

/-- **The rule**: the last removal that the leaf asks for itself, or else the last removal of it, or else its last
update, if it is not the own one. -/
def winner (ownIndex leaf : Nat) (received : List (QueuedProposal Ref Content)) : Option (QueuedProposal Ref Content) :=
  (lastWith (isSelfRemoveOf leaf) received).or <| (lastWith (isRemoveOf leaf) received).or <|
    if leaf = ownIndex then none else lastWith (isUpdateOf leaf) received

/-- Whether a proposal that concerns no leaf and adds none is to be taken: of the external inits only the first. -/
def IsValid (received : List (QueuedProposal Ref Content)) (queued : QueuedProposal Ref Content) : Prop :=
  queued ∈ received ∧ queued.isAlwaysValid = true ∨ received.find? isExternalInit = some queued

/-- A removal that a leaf asks for itself, and something else that concerns the leaf. -/
def Clash (ownIndex : Nat) (first second : QueuedProposal Ref Content) : Prop :=
  ∃ leaf, first.isSelfRemoveOf leaf = true ∧
    (second.isRemoveOf leaf = true ∨ second.isUpdateOf leaf = true ∧ leaf ≠ ownIndex)

section LastWith

variable {α : Type} {p : α → Bool} {list : List α} {a : α}

theorem lastWith_append (p : α → Bool) (list : List α) (a : α) :
    lastWith p (list ++ [a]) = if p a then some a else lastWith p list := by
  rw [lastWith, List.reverse_append, List.reverse_singleton, List.singleton_append, List.find?_cons, lastWith]
  cases p a <;> rfl

theorem lastWith_some (found : lastWith p list = some a) : p a = true ∧ a ∈ list :=
  ⟨List.find?_some found, List.mem_reverse.mp (List.mem_of_find?_eq_some found)⟩

theorem lastWith_ne_none (member : a ∈ list) (holds : p a = true) : lastWith p list ≠ none := by
  intro none
  exact absurd holds (by simpa using List.find?_eq_none.mp none a (List.mem_reverse.mpr member))

end LastWith

theorem sublist_append_iff {done : List (QueuedProposal Ref Content)} {s r queued : QueuedProposal Ref Content} :
    [s, r].Sublist (done ++ [queued]) ↔ [s, r].Sublist done ∨ s ∈ done ∧ r = queued := by
  constructor
  · intro sub
    obtain ⟨front, back, split, inDone, inLast⟩ := List.sublist_append_iff.mp sub
    rcases List.sublist_singleton.mp inLast with rfl | rfl
    · left
      rwa [split, List.append_nil]
    · right
      have pair : [s] ++ [r] = front ++ [queued] := split
      obtain ⟨rfl, last⟩ := List.append_inj' pair rfl
      exact ⟨List.singleton_sublist.mp inDone, by simpa using last⟩
  · rintro (before | ⟨member, rfl⟩)
    · exact before.trans (List.sublist_append_left _ _)
    · exact List.Sublist.append (List.singleton_sublist.mpr member) (List.Sublist.refl [r])

theorem exists_mem_append_singleton {α : Type} {list : List α} {a : α} {p : α → Prop} :
    (∃ x ∈ list ++ [a], p x) ↔ (∃ x ∈ list, p x) ∨ p a := by
  simp only [List.mem_append, List.mem_singleton, or_and_right, exists_or, exists_eq_left]

/-! ### The comparison -/

section Comparison

variable {ownIndex : Nat} {done : List (QueuedProposal Ref Content)} {queued : QueuedProposal Ref Content}

/-- A proposal that concerns no leaf changes none of the winners. -/
theorem winner_append_of_not (leaf : Nat) (selfRemove : queued.isSelfRemoveOf leaf = false)
    (remove : queued.isRemoveOf leaf = false) (update : queued.isUpdateOf leaf = false ∨ leaf = ownIndex) :
    winner ownIndex leaf (done ++ [queued]) = winner ownIndex leaf done := by
  rw [winner, winner, lastWith_append, lastWith_append, lastWith_append, selfRemove, remove]
  rcases update with no | rfl
  · simp [no]
  · simp

theorem isSelfRemoveOf_iff {leaf : Nat} :
    queued.isSelfRemoveOf leaf = true ↔ queued.proposal = .selfRemove ∧ queued.sender = .member leaf := by
  unfold isSelfRemoveOf
  split <;> simp_all

theorem isRemoveOf_iff {leaf : Nat} : queued.isRemoveOf leaf = true ↔ queued.proposal = .remove leaf := by
  unfold isRemoveOf
  split <;> simp_all

theorem isUpdateOf_iff {leaf : Nat} :
    queued.isUpdateOf leaf = true ↔ (∃ content, queued.proposal = .update content) ∧ queued.sender = .member leaf := by
  unfold isUpdateOf
  split <;> simp_all

/-- Whether a proposal competes for a leaf. -/
def Competes (ownIndex leaf : Nat) (queued : QueuedProposal Ref Content) : Prop :=
  queued.isSelfRemoveOf leaf = true ∨ queued.isRemoveOf leaf = true ∨ queued.isUpdateOf leaf = true ∧ leaf ≠ ownIndex

/-- What becomes of the proposal for a leaf when another one comes. -/
def contest (existing : Option (QueuedProposal Ref Content)) (queued : QueuedProposal Ref Content) :
    Option (QueuedProposal Ref Content) × Bool :=
  match existing with
  | none => (some queued, false)
  | some existing =>
    (if (existing.proposal.hasLowerPriorityThan queued.proposal).1 then some queued else some existing,
      (existing.proposal.hasLowerPriorityThan queued.proposal).2)

/-- **The pairwise comparison picks the winner**, and reaches the assertion if the leaf has asked for its removal. -/
theorem contest_winner (done : List (QueuedProposal Ref Content)) {leaf : Nat} (competes : Competes ownIndex leaf queued) :
    (contest (winner ownIndex leaf done) queued).1 = winner ownIndex leaf (done ++ [queued]) ∧
      ((contest (winner ownIndex leaf done) queued).2 = true ↔
        lastWith (isSelfRemoveOf leaf) done ≠ none ∧ queued.isSelfRemoveOf leaf = false) := by
  have selfRemoves : ∀ {s}, lastWith (isSelfRemoveOf leaf) done = some s → s.proposal = .selfRemove :=
    fun found => (isSelfRemoveOf_iff.mp (lastWith_some found).1).1
  have removes : ∀ {w}, lastWith (isRemoveOf leaf) done = some w → w.proposal = .remove leaf :=
    fun found => isRemoveOf_iff.mp (lastWith_some found).1
  have updates : ∀ {u}, lastWith (isUpdateOf leaf) done = some u → ∃ content, u.proposal = .update content :=
    fun found => (isUpdateOf_iff.mp (lastWith_some found).1).1
  unfold winner
  rw [lastWith_append, lastWith_append, lastWith_append]
  -- Whichever of the three the new proposal is, it is compared with the best that there is.
  rcases competes with selfRemove | remove | ⟨update, other⟩
  · have kind := (isSelfRemoveOf_iff.mp selfRemove).1
    cases first : lastWith (isSelfRemoveOf leaf) done with
    | some s => simp [contest, selfRemoves first, kind, Proposal.hasLowerPriorityThan, selfRemove]
    | none =>
      cases second : lastWith (isRemoveOf leaf) done with
      | some w => simp [contest, removes second, kind, Proposal.hasLowerPriorityThan, selfRemove]
      | none =>
        cases third : lastWith (isUpdateOf leaf) done with
        | some u =>
          obtain ⟨content, old⟩ := updates third
          rcases eq_or_ne leaf ownIndex with rfl | other
          · simp [contest, selfRemove]
          · simp [contest, old, Proposal.hasLowerPriorityThan, selfRemove, other]
        | none => simp [contest, selfRemove]
  · have kind := isRemoveOf_iff.mp remove
    have notSelf : queued.isSelfRemoveOf leaf = false := by
      rw [Bool.eq_false_iff, Ne, isSelfRemoveOf_iff, kind]
      simp
    cases first : lastWith (isSelfRemoveOf leaf) done with
    | some s => simp [contest, selfRemoves first, kind, Proposal.hasLowerPriorityThan, notSelf]
    | none =>
      cases second : lastWith (isRemoveOf leaf) done with
      | some w => simp [contest, removes second, kind, Proposal.hasLowerPriorityThan, notSelf, remove]
      | none =>
        cases third : lastWith (isUpdateOf leaf) done with
        | some u =>
          obtain ⟨content, old⟩ := updates third
          rcases eq_or_ne leaf ownIndex with rfl | other
          · simp [contest, notSelf, remove]
          · simp [contest, old, Proposal.hasLowerPriorityThan, notSelf, remove, other]
        | none => simp [contest, notSelf, remove]
  · obtain ⟨content, kind⟩ := (isUpdateOf_iff.mp update).1
    have notSelf : queued.isSelfRemoveOf leaf = false := by
      rw [Bool.eq_false_iff, Ne, isSelfRemoveOf_iff, kind]
      simp
    have notRemove : queued.isRemoveOf leaf = false := by
      rw [Bool.eq_false_iff, Ne, isRemoveOf_iff, kind]
      simp
    cases first : lastWith (isSelfRemoveOf leaf) done with
    | some s => simp [contest, selfRemoves first, kind, Proposal.hasLowerPriorityThan, notSelf]
    | none =>
      cases second : lastWith (isRemoveOf leaf) done with
      | some w => simp [contest, removes second, kind, Proposal.hasLowerPriorityThan, notSelf, notRemove]
      | none =>
        cases third : lastWith (isUpdateOf leaf) done with
        | some u =>
          obtain ⟨content', old⟩ := updates third
          simp [contest, old, Proposal.hasLowerPriorityThan, notSelf, notRemove, update, other]
        | none => simp [contest, notSelf, notRemove, update, other]

theorem Competes.concerns {leaf : Nat} (competes : Competes ownIndex leaf queued) : queued.concerns leaf = true := by
  rcases competes with selfRemove | remove | ⟨update, -⟩
  · simp [QueuedProposal.concerns, selfRemove]
  · simp [QueuedProposal.concerns, remove]
  · simp [QueuedProposal.concerns, update]

/-- A proposal that concerns a leaf is of no other kind and concerns no other leaf. -/
theorem concerns_only {leaf : Nat} (concerned : queued.concerns leaf = true) :
    queued.isAdd = false ∧ queued.isAlwaysValid = false ∧ queued.isExternalInit = false ∧
      ∀ other, queued.concerns other = true → leaf = other := by
  simp only [QueuedProposal.concerns, Bool.or_eq_true, isSelfRemoveOf_iff, isRemoveOf_iff, isUpdateOf_iff] at concerned ⊢
  rcases concerned with (⟨kind, sender⟩ | kind) | ⟨⟨content, kind⟩, sender⟩
  · simp [isAdd, isAlwaysValid, isExternalInit, kind, sender]
  · simp [isAdd, isAlwaysValid, isExternalInit, kind]
  · simp [isAdd, isAlwaysValid, isExternalInit, kind, sender]

theorem isExternalInit_eq_false (other : queued.isAdd = true ∨ queued.isAlwaysValid = true) :
    queued.isExternalInit = false := by
  unfold isAdd isAlwaysValid at other
  unfold isExternalInit
  cases kind : queued.proposal <;> simp_all

theorem winner_some {leaf : Nat} (wins : winner ownIndex leaf done = some queued) :
    queued ∈ done ∧ Competes ownIndex leaf queued := by
  unfold winner at wins
  rcases Option.or_eq_some_iff.mp wins with first | ⟨-, rest⟩
  · obtain ⟨holds, member⟩ := lastWith_some first
    exact ⟨member, .inl holds⟩
  · rcases Option.or_eq_some_iff.mp rest with second | ⟨-, third⟩
    · obtain ⟨holds, member⟩ := lastWith_some second
      exact ⟨member, .inr (.inl holds)⟩
    · split at third
      · simp at third
      · rename_i other
        obtain ⟨holds, member⟩ := lastWith_some third
        exact ⟨member, .inr (.inr ⟨holds, other⟩)⟩

end Comparison

/-! ### The filter -/

inductive ProposalQueueError
  | proposalNotFound
  | updateFromExternalSender
  | selfRemoveFromNonMember
deriving DecidableEq

/-- The references of a queue in their order, and the proposals under them. -/
structure ProposalQueue (Ref Content : Type) where
  proposalReferences : List Ref
  queuedProposals : Ref → Option (QueuedProposal Ref Content)

/-- The state of the loop of the filter. The set of `OrderedProposalRefs` is that of its vector and left out. -/
structure FilterState (Ref Content : Type) where
  adds : List Ref
  validProposals : List Ref
  proposalPool : Ref → Option (QueuedProposal Ref Content)
  containsOwnUpdates : Bool
  containsExternalInit : Bool
  memberSpecificProposals : AList fun _ : Nat => QueuedProposal Ref Content
  assertionReached : Bool

/-- An entry of the hash map of the leaves. -/
abbrev LeafEntry (Ref Content : Type) := Σ _ : Nat, QueuedProposal Ref Content

/-- What the filter returns, and whether the debug assertion was reached on the way. -/
structure Filtered (Ref Content : Type) where
  queue : ProposalQueue Ref Content
  containsOwnUpdates : Bool
  assertionReached : Bool

variable [DecidableEq Ref]

/-- `OrderedProposalRefs::add`. -/
def addRef (refs : List Ref) (ref : Ref) : List Ref := if ref ∈ refs then refs else refs ++ [ref]

namespace FilterState

def new : FilterState Ref Content := ⟨[], [], fun _ => none, false, false, ∅, false⟩

def registerMemberSpecificProposal (state : FilterState Ref Content) (member : Nat)
    (queued : QueuedProposal Ref Content) : FilterState Ref Content :=
  match state.memberSpecificProposals.lookup member with
  | none => { state with memberSpecificProposals := state.memberSpecificProposals.insert member queued }
  | some existing =>
    let (lower, asserts) := existing.proposal.hasLowerPriorityThan queued.proposal
    { state with
      memberSpecificProposals :=
        if lower then state.memberSpecificProposals.insert member queued else state.memberSpecificProposals
      assertionReached := state.assertionReached || asserts }

def pooled (state : FilterState Ref Content) (queued : QueuedProposal Ref Content) : FilterState Ref Content :=
  { state with proposalPool := Function.update state.proposalPool queued.proposalReference (some queued) }

def withValid (state : FilterState Ref Content) (queued : QueuedProposal Ref Content) : FilterState Ref Content :=
  { state with validProposals := addRef state.validProposals queued.proposalReference }

def accept (ownIndex : Nat) (before : FilterState Ref Content) (queued : QueuedProposal Ref Content) :
    Except ProposalQueueError (FilterState Ref Content) :=
  let state := before.pooled queued
  match queued.proposal with
  | .add _ => .ok { state with adds := addRef state.adds queued.proposalReference }
  | .update _ =>
    match queued.sender with
    | .member senderIndex =>
      if senderIndex = ownIndex then .ok { state with containsOwnUpdates := true }
      else .ok (state.registerMemberSpecificProposal senderIndex queued)
    | _ => .error .updateFromExternalSender
  | .remove removed => .ok (state.registerMemberSpecificProposal removed queued)
  | .preSharedKey _ => .ok (state.withValid queued)
  | .reInit _ => .ok state
  | .externalInit _ =>
    if state.containsExternalInit then .ok state
    else .ok { state.withValid queued with containsExternalInit := true }
  | .groupContextExtensions _ => .ok (state.withValid queued)
  | .selfRemove =>
    match queued.sender with
    | .member removed => .ok (state.registerMemberSpecificProposal removed queued)
    | _ => .error .selfRemoveFromNonMember
  | .custom _ => .ok (state.withValid queued)

end FilterState

omit [DecidableEq Ref] in
theorem lookup_register_self (state : FilterState Ref Content) (leaf : Nat) (queued : QueuedProposal Ref Content) :
    (state.registerMemberSpecificProposal leaf queued).memberSpecificProposals.lookup leaf
      = (contest (state.memberSpecificProposals.lookup leaf) queued).1 := by
  unfold FilterState.registerMemberSpecificProposal contest
  cases here : state.memberSpecificProposals.lookup leaf with
  | none => exact AList.lookup_insert _
  | some existing =>
    dsimp only
    split
    · exact AList.lookup_insert _
    · exact here

omit [DecidableEq Ref] in
theorem lookup_register_of_ne (state : FilterState Ref Content) {leaf other : Nat} (apart : other ≠ leaf)
    (queued : QueuedProposal Ref Content) :
    (state.registerMemberSpecificProposal leaf queued).memberSpecificProposals.lookup other
      = state.memberSpecificProposals.lookup other := by
  unfold FilterState.registerMemberSpecificProposal
  split
  · exact AList.lookup_insert_ne apart
  · dsimp only
    split
    · exact AList.lookup_insert_ne apart
    · rfl

omit [DecidableEq Ref] in
/-- To register a proposal changes only the proposals of the leaves, and notes the assertion. -/
theorem register_eq (state : FilterState Ref Content) (leaf : Nat) (queued : QueuedProposal Ref Content) :
    state.registerMemberSpecificProposal leaf queued = { state with
      memberSpecificProposals := (state.registerMemberSpecificProposal leaf queued).memberSpecificProposals
      assertionReached := state.assertionReached ||
        (contest (state.memberSpecificProposals.lookup leaf) queued).2 } := by
  unfold FilterState.registerMemberSpecificProposal contest
  cases state.memberSpecificProposals.lookup leaf with
  | none => simp
  | some existing => rfl

namespace ProposalQueue

def new : ProposalQueue Ref Content := ⟨[], fun _ => none⟩

def add (queue : ProposalQueue Ref Content) (queued : QueuedProposal Ref Content) : ProposalQueue Ref Content :=
  match queue.queuedProposals queued.proposalReference with
  | none =>
    ⟨queue.proposalReferences ++ [queued.proposalReference],
      Function.update queue.queuedProposals queued.proposalReference (some queued)⟩
  | some _ => queue

def proposals (queue : ProposalQueue Ref Content) : List (QueuedProposal Ref Content) :=
  queue.proposalReferences.filterMap queue.queuedProposals

def addFromPool (pool : Ref → Option (QueuedProposal Ref Content)) (queue : ProposalQueue Ref Content) (ref : Ref) :
    Except ProposalQueueError (ProposalQueue Ref Content) :=
  match pool ref with
  | some queued => .ok (queue.add queued)
  | none => .error .proposalNotFound

/-- `filter_proposals`. The hash map of the leaves is walked in the order that `walked` makes of its entries. -/
def filterProposals (walked : List (LeafEntry Ref Content) → List (LeafEntry Ref Content))
    (received : List (QueuedProposal Ref Content)) (ownIndex : Nat) :
    Except ProposalQueueError (Filtered Ref Content) := do
  let state ← received.foldlM (FilterState.accept ownIndex) .new
  let validProposals := (walked state.memberSpecificProposals.entries).foldl
    (fun refs entry => addRef refs entry.2.proposalReference) state.validProposals
  let queue ← (state.adds ++ validProposals).foldlM (addFromPool state.proposalPool) .new
  return ⟨queue, state.containsOwnUpdates, state.assertionReached⟩

end ProposalQueue

/-! ### The loop -/

/-- **The invariant of the loop.** -/
structure Filtering (ownIndex : Nat) (done : List (QueuedProposal Ref Content)) (state : FilterState Ref Content) :
    Prop where
  adds : ∀ ref, ref ∈ state.adds ↔ ∃ queued ∈ done, queued.isAdd = true ∧ queued.proposalReference = ref
  valid : ∀ ref, ref ∈ state.validProposals ↔ ∃ queued, IsValid done queued ∧ queued.proposalReference = ref
  pool : ∀ ref, state.proposalPool ref = lastWith (fun queued => queued.proposalReference == ref) done
  own : state.containsOwnUpdates = done.any (isUpdateOf ownIndex)
  init : state.containsExternalInit = done.any isExternalInit
  members : ∀ leaf, state.memberSpecificProposals.lookup leaf = winner ownIndex leaf done
  asserted : state.assertionReached = true ↔ ∃ s r, [s, r].Sublist done ∧ Clash ownIndex s r

theorem filtering_new (ownIndex : Nat) : Filtering ownIndex [] (.new : FilterState Ref Content) where
  adds ref := by simp [FilterState.new]
  valid ref := by simp [FilterState.new, IsValid]
  pool ref := rfl
  own := rfl
  init := rfl
  members leaf := by simp [FilterState.new, winner, lastWith]
  asserted := by simp [FilterState.new]

theorem mem_addRef {refs : List Ref} {ref other : Ref} : other ∈ addRef refs ref ↔ other ∈ refs ∨ other = ref := by
  unfold addRef
  split
  · rename_i known
    refine ⟨.inl, ?_⟩
    rintro (member | rfl)
    · exact member
    · exact known
  · simp

section Step

variable {ownIndex : Nat} {done : List (QueuedProposal Ref Content)} {state : FilterState Ref Content}
  {queued : QueuedProposal Ref Content}

/-- What a proposal makes of the parts of the state that are not about leaves. -/
structure Advances (ownIndex : Nat) (state : FilterState Ref Content) (queued : QueuedProposal Ref Content)
    (state' : FilterState Ref Content) : Prop where
  adds : state'.adds = if queued.isAdd then addRef state.adds queued.proposalReference else state.adds
  valid : state'.validProposals
    = if queued.isAlwaysValid || queued.isExternalInit && !state.containsExternalInit
      then addRef state.validProposals queued.proposalReference else state.validProposals
  pool : state'.proposalPool = Function.update state.proposalPool queued.proposalReference (some queued)
  own : state'.containsOwnUpdates = (state.containsOwnUpdates || queued.isUpdateOf ownIndex)
  init : state'.containsExternalInit = (state.containsExternalInit || queued.isExternalInit)

theorem Filtering.append (filtering : Filtering ownIndex done state) {state' : FilterState Ref Content}
    (advances : Advances ownIndex state queued state')
    (members : ∀ leaf, state'.memberSpecificProposals.lookup leaf = winner ownIndex leaf (done ++ [queued]))
    (asserted : state'.assertionReached = true ↔ state.assertionReached = true ∨ ∃ s ∈ done, Clash ownIndex s queued) :
    Filtering ownIndex (done ++ [queued]) state' where
  adds ref := by
    rw [advances.adds, exists_mem_append_singleton, ← filtering.adds ref]
    by_cases isAdd : queued.isAdd = true
    · rw [if_pos isAdd, mem_addRef, eq_comm (a := ref)]
      simp [isAdd]
    · rw [if_neg isAdd]
      simp [isAdd]
  valid ref := by
    have first : done.find? isExternalInit = none ↔ state.containsExternalInit = false := by
      rw [filtering.init, List.find?_eq_none, List.any_eq_false]
    have split : ∀ other, IsValid (done ++ [queued]) other ↔ IsValid done other ∨
        queued = other ∧ (queued.isAlwaysValid || queued.isExternalInit && !state.containsExternalInit) = true := by
      intro other
      unfold IsValid
      rw [List.find?_append, List.mem_append, List.mem_singleton]
      cases found : done.find? isExternalInit with
      | none =>
        rw [first.mp found]
        cases isInit : queued.isExternalInit <;> simp [isInit] <;> grind
      | some earlier =>
        have seen : state.containsExternalInit = true := by
          rw [← Bool.not_eq_false, ← first, found]
          simp
        rw [seen]
        simp
        grind
    simp only [split, or_and_right, exists_or]
    rw [← filtering.valid ref, advances.valid]
    by_cases taken : (queued.isAlwaysValid || queued.isExternalInit && !state.containsExternalInit) = true
    · rw [if_pos taken, mem_addRef, eq_comm (a := ref)]
      simp [taken]
    · rw [if_neg taken]
      simp [taken]
  pool ref := by
    rw [advances.pool, lastWith_append, Function.update_apply, filtering.pool ref]
    by_cases same : queued.proposalReference = ref
    · simp [same]
    · rw [if_neg (Ne.symm same), if_neg (by simpa using same)]
  own := by rw [advances.own, filtering.own, List.any_append, List.any_cons, List.any_nil, Bool.or_false]
  init := by rw [advances.init, filtering.init, List.any_append, List.any_cons, List.any_nil, Bool.or_false]
  members := members
  asserted := by
    rw [asserted, filtering.asserted]
    constructor
    · rintro (⟨s, r, before, clash⟩ | ⟨s, member, clash⟩)
      · exact ⟨s, r, sublist_append_iff.mpr (.inl before), clash⟩
      · exact ⟨s, queued, sublist_append_iff.mpr (.inr ⟨member, rfl⟩), clash⟩
    · rintro ⟨s, r, here, clash⟩
      rcases sublist_append_iff.mp here with before | ⟨member, rfl⟩
      · exact .inl ⟨s, r, before, clash⟩
      · exact .inr ⟨s, member, clash⟩

theorem Filtering.quiet (filtering : Filtering ownIndex done state)
    (quiet : ∀ leaf, ¬ Competes ownIndex leaf queued) :
    (∀ leaf, state.memberSpecificProposals.lookup leaf = winner ownIndex leaf (done ++ [queued])) ∧
      (state.assertionReached = true ↔ state.assertionReached = true ∨ ∃ s ∈ done, Clash ownIndex s queued) := by
  constructor
  · intro leaf
    have out := quiet leaf
    unfold Competes at out
    rw [filtering.members, winner_append_of_not leaf (by simp_all) (by simp_all)]
    by_cases own : leaf = ownIndex
    · exact .inr own
    · left
      simp_all
  · refine ⟨.inl, ?_⟩
    rintro (before | ⟨s, -, leaf, -, remove | update⟩)
    · exact before
    · exact absurd (.inr (.inl remove)) (quiet leaf)
    · exact absurd (.inr (.inr update)) (quiet leaf)

theorem Filtering.contested (filtering : Filtering ownIndex done state) {leaf : Nat}
    (competes : Competes ownIndex leaf queued) (alone : ∀ other, queued.concerns other = true → leaf = other)
    (notOwn : queued.isUpdateOf ownIndex = false) (notAdd : queued.isAdd = false)
    (notValid : queued.isAlwaysValid = false) (notInit : queued.isExternalInit = false) :
    Filtering ownIndex (done ++ [queued]) ((state.pooled queued).registerMemberSpecificProposal leaf queued) := by
  obtain ⟨wins, asserts⟩ := contest_winner done competes
  have others : ∀ other, other ≠ leaf → queued.concerns other = false := by
    intro other apart
    rw [Bool.eq_false_iff]
    exact fun concerned => apart (alone other concerned).symm
  rw [register_eq]
  refine filtering.append ⟨by rw [notAdd]; rfl, by rw [notValid, notInit]; rfl, rfl, by rw [notOwn, Bool.or_false]; rfl,
    by rw [notInit, Bool.or_false]; rfl⟩ (fun other => ?_) ?_
  · dsimp only
    by_cases same : other = leaf
    · rw [same, lookup_register_self, ← wins]
      exact congrArg (fun existing => (contest existing queued).1) (filtering.members leaf)
    · have quiet := others other same
      unfold concerns at quiet
      rw [lookup_register_of_ne _ same, winner_append_of_not other (by simp_all) (by simp_all) (.inl (by simp_all))]
      exact filtering.members other
  · have here : (state.pooled queued).memberSpecificProposals.lookup leaf = winner ownIndex leaf done :=
      filtering.members leaf
    dsimp only
    rw [Bool.or_eq_true, here, asserts]
    refine or_congr Iff.rfl ?_
    constructor
    · rintro ⟨found, notSelf⟩
      obtain ⟨s, last⟩ := Option.ne_none_iff_exists'.mp found
      obtain ⟨isSelf, member⟩ := lastWith_some last
      refine ⟨s, member, leaf, isSelf, ?_⟩
      rcases competes with selfRemove | rest
      · rw [notSelf] at selfRemove
        simp at selfRemove
      · exact rest
    · rintro ⟨s, member, other, isSelf, rest⟩
      obtain rfl : leaf = other := alone other (by
        rcases rest with remove | ⟨update, -⟩
        · simp [concerns, remove]
        · simp [concerns, update])
      refine ⟨lastWith_ne_none member isSelf, ?_⟩
      rw [Bool.eq_false_iff, Ne, isSelfRemoveOf_iff]
      rintro ⟨kind, -⟩
      rcases rest with remove | ⟨update, -⟩
      · rw [isRemoveOf_iff, kind] at remove
        simp at remove
      · obtain ⟨⟨content, update⟩, -⟩ := isUpdateOf_iff.mp update
        rw [kind] at update
        simp at update

theorem Filtering.pass (filtering : Filtering ownIndex done state) {state' : FilterState Ref Content}
    (quiet : ∀ leaf, ¬ Competes ownIndex leaf queued)
    (members : state'.memberSpecificProposals = state.memberSpecificProposals)
    (asserted : state'.assertionReached = state.assertionReached) (advances : Advances ownIndex state queued state') :
    Filtering ownIndex (done ++ [queued]) state' := by
  obtain ⟨unchanged, noClash⟩ := filtering.quiet quiet
  refine filtering.append advances ?_ ?_
  · rw [members]
    exact unchanged
  · rw [asserted]
    exact noClash

theorem Filtering.step (filtering : Filtering ownIndex done state) {state' : FilterState Ref Content}
    (accepts : state.accept ownIndex queued = .ok state') : Filtering ownIndex (done ++ [queued]) state' := by
  unfold FilterState.accept at accepts
  cases kind : queued.proposal with
  | add content | preSharedKey content | groupContextExtensions content | custom content | reInit content =>
    rw [kind] at accepts
    obtain rfl := Except.ok.inj accepts
    refine filtering.pass ?_ rfl rfl ⟨?_, ?_, rfl, ?_, ?_⟩ <;>
      simp [Competes, isSelfRemoveOf, isRemoveOf, isUpdateOf, isAdd, isAlwaysValid, isExternalInit, kind,
        FilterState.pooled, FilterState.withValid]
  | externalInit content =>
    rw [kind] at accepts
    have seen : (state.pooled queued).containsExternalInit = state.containsExternalInit := rfl
    dsimp only at accepts
    rw [seen] at accepts
    split at accepts
    · rename_i known
      obtain rfl := Except.ok.inj accepts
      refine filtering.pass ?_ rfl rfl ⟨?_, ?_, rfl, ?_, ?_⟩ <;>
        simp [Competes, isSelfRemoveOf, isRemoveOf, isUpdateOf, isAdd, isAlwaysValid, isExternalInit, kind,
          FilterState.pooled, known]
    · rename_i first
      obtain rfl := Except.ok.inj accepts
      refine filtering.pass ?_ rfl rfl ⟨?_, ?_, rfl, ?_, ?_⟩ <;>
        simp [Competes, isSelfRemoveOf, isRemoveOf, isUpdateOf, isAdd, isAlwaysValid, isExternalInit, kind,
          FilterState.pooled, FilterState.withValid, first]
  | remove removed =>
    rw [kind] at accepts
    obtain rfl := Except.ok.inj accepts
    refine filtering.contested (.inr (.inl (isRemoveOf_iff.mpr kind))) ?_ ?_ ?_ ?_ ?_ <;>
      simp [concerns, isSelfRemoveOf, isRemoveOf, isUpdateOf, isAdd, isAlwaysValid, isExternalInit, kind]
  | selfRemove =>
    rw [kind] at accepts
    cases sender : queued.sender with
    | member removed =>
      rw [sender] at accepts
      obtain rfl := Except.ok.inj accepts
      refine filtering.contested (.inl (isSelfRemoveOf_iff.mpr ⟨kind, sender⟩)) ?_ ?_ ?_ ?_ ?_ <;>
        simp [concerns, isSelfRemoveOf, isRemoveOf, isUpdateOf, isAdd, isAlwaysValid, isExternalInit, kind, sender]
    | _ =>
      rw [sender] at accepts
      simp at accepts
  | update content =>
    rw [kind] at accepts
    cases sender : queued.sender with
    | member senderIndex =>
      rw [sender] at accepts
      dsimp only at accepts
      split at accepts
      · rename_i own
        obtain rfl := Except.ok.inj accepts
        refine filtering.pass (fun leaf => ?_) rfl rfl ⟨?_, ?_, rfl, ?_, ?_⟩
        · simpa [Competes, isSelfRemoveOf, isRemoveOf, isUpdateOf, kind, sender, own] using Eq.symm
        all_goals simp [isUpdateOf, isAdd, isAlwaysValid, isExternalInit, kind, sender, FilterState.pooled, own]
      · rename_i other
        obtain rfl := Except.ok.inj accepts
        refine filtering.contested (.inr (.inr ⟨isUpdateOf_iff.mpr ⟨⟨content, kind⟩, sender⟩, other⟩)) ?_ ?_ ?_ ?_ ?_ <;>
          simp [concerns, isSelfRemoveOf, isRemoveOf, isUpdateOf, isAdd, isAlwaysValid, isExternalInit, kind, sender,
            other]
    | _ =>
      rw [sender] at accepts
      simp at accepts

theorem filtering_foldlM {received : List (QueuedProposal Ref Content)} {state' : FilterState Ref Content}
    (filtering : Filtering ownIndex done state)
    (accepts : received.foldlM (FilterState.accept ownIndex) state = .ok state') :
    Filtering ownIndex (done ++ received) state' := by
  induction received generalizing done state with
  | nil =>
    obtain rfl := Except.ok.inj accepts
    rwa [List.append_nil]
  | cons queued received ih =>
    rw [List.foldlM_cons] at accepts
    obtain ⟨next, first, rest⟩ := except_bind_ok_iff.mp accepts
    rw [List.append_cons]
    exact ih (filtering.step first) rest

end Step

/-! ### The queue -/

section Queue

variable {pool : Ref → Option (QueuedProposal Ref Content)} {taken : List Ref}
  {queue queue' : ProposalQueue Ref Content}

/-- A queue that was built by adding the proposals under some references. -/
structure Built (pool : Ref → Option (QueuedProposal Ref Content)) (taken : List Ref)
    (queue : ProposalQueue Ref Content) : Prop where
  nodup : queue.proposalReferences.Nodup
  mem : ∀ ref, ref ∈ queue.proposalReferences ↔ ref ∈ taken
  content : ∀ ref ∈ taken, queue.queuedProposals ref = pool ref ∧ pool ref ≠ none
  absent : ∀ ref, ref ∉ taken → queue.queuedProposals ref = none

omit [DecidableEq Ref] in
theorem built_new (pool : Ref → Option (QueuedProposal Ref Content)) : Built pool [] .new :=
  ⟨List.nodup_nil, by simp [ProposalQueue.new], by simp, fun _ _ => rfl⟩

theorem Built.step {ref : Ref} (keyed : ∀ ref queued, pool ref = some queued → queued.proposalReference = ref)
    (built : Built pool taken queue) (adds : queue.addFromPool pool ref = .ok queue') :
    Built pool (taken ++ [ref]) queue' := by
  unfold ProposalQueue.addFromPool at adds
  split at adds
  · rename_i queued found
    obtain rfl := Except.ok.inj adds
    unfold ProposalQueue.add
    rw [keyed ref queued found]
    by_cases known : ref ∈ taken
    · rw [(built.content ref known).1, found]
      have same : ∀ other, other ∈ taken ++ [ref] ↔ other ∈ taken := by
        intro other
        rw [List.mem_append, List.mem_singleton]
        exact ⟨fun either => either.elim id fun last => last ▸ known, .inl⟩
      exact ⟨built.nodup, fun other => (built.mem other).trans (same other).symm,
        fun other member => built.content other ((same other).mp member),
        fun other missing => built.absent other (mt (same other).mpr missing)⟩
    · rw [built.absent ref known]
      have fresh : ref ∉ queue.proposalReferences := mt (built.mem ref).mp known
      refine ⟨?_, fun other => ?_, fun other member => ?_, fun other missing => ?_⟩
      · exact List.nodup_append.mpr ⟨built.nodup, List.nodup_singleton ref, by
          rintro first there second last rfl
          exact fresh (List.mem_singleton.mp last ▸ there)⟩
      · rw [List.mem_append, List.mem_append, built.mem]
      · dsimp only
        by_cases same : other = ref
        · rw [same, Function.update_self, found]
          simp
        · rw [Function.update_of_ne same]
          exact built.content other (by simpa [same] using member)
      · simp only [List.mem_append, List.mem_singleton, not_or] at missing
        dsimp only
        rw [Function.update_of_ne missing.2, built.absent other missing.1]
  · simp at adds

theorem Built.foldlM {refs : List Ref}
    (keyed : ∀ ref queued, pool ref = some queued → queued.proposalReference = ref)
    (built : Built pool taken queue) (adds : refs.foldlM (ProposalQueue.addFromPool pool) queue = .ok queue') :
    Built pool (taken ++ refs) queue' := by
  induction refs generalizing taken queue with
  | nil =>
    obtain rfl := Except.ok.inj adds
    rwa [List.append_nil]
  | cons ref refs ih =>
    rw [List.foldlM_cons] at adds
    obtain ⟨next, first, rest⟩ := except_bind_ok_iff.mp adds
    rw [List.append_cons]
    exact ih (built.step keyed first) rest

omit [DecidableEq Ref] in
theorem Built.mem_proposals (keyed : ∀ ref queued, pool ref = some queued → queued.proposalReference = ref)
    (built : Built pool taken queue) {queued : QueuedProposal Ref Content} :
    queued ∈ queue.proposals ↔ queued.proposalReference ∈ taken ∧ pool queued.proposalReference = some queued := by
  rw [ProposalQueue.proposals, List.mem_filterMap]
  constructor
  · rintro ⟨ref, member, here⟩
    have known := (built.mem ref).mp member
    rw [(built.content ref known).1] at here
    obtain rfl := keyed ref queued here
    exact ⟨known, here⟩
  · rintro ⟨known, here⟩
    exact ⟨_, (built.mem _).mpr known, (built.content _ known).1.trans here⟩

omit [DecidableEq Ref] in
theorem Built.nodup_references (keyed : ∀ ref queued, pool ref = some queued → queued.proposalReference = ref)
    (built : Built pool taken queue) : (queue.proposals.map (·.proposalReference)).Nodup := by
  have same : queue.proposals.map (·.proposalReference) = queue.proposalReferences := by
    rw [ProposalQueue.proposals, List.map_filterMap]
    conv_rhs => rw [← List.filterMap_some (l := queue.proposalReferences)]
    refine List.filterMap_congr fun ref member => ?_
    obtain ⟨here, found⟩ := built.content ref ((built.mem ref).mp member)
    obtain ⟨queued, there⟩ := Option.ne_none_iff_exists'.mp found
    rw [here, there, Option.map_some, keyed ref queued there]
  rw [same]
  exact built.nodup

end Queue

/-! ### The result -/

section Result

variable {ownIndex leaf : Nat} {received : List (QueuedProposal Ref Content)} {queued : QueuedProposal Ref Content}
  {walked : List (LeafEntry Ref Content) → List (LeafEntry Ref Content)}

theorem mem_foldl_addRef {entries : List (LeafEntry Ref Content)} {refs : List Ref} {ref : Ref} :
    ref ∈ entries.foldl (fun refs entry => addRef refs entry.2.proposalReference) refs ↔
      ref ∈ refs ∨ ∃ entry ∈ entries, entry.2.proposalReference = ref := by
  induction entries generalizing refs with
  | nil => simp
  | cons entry entries ih =>
    rw [List.foldl_cons, ih, mem_addRef, eq_comm (a := ref)]
    simp [or_assoc]

/-- What the filter leaves, if references tell proposals apart. -/
theorem mem_filterProposals
    (shuffles : ∀ entries, (walked entries).Perm entries) {filtered : Filtered Ref Content}
    (identified : ∀ first ∈ received, ∀ second ∈ received,
      first.proposalReference = second.proposalReference → first = second)
    (returns : ProposalQueue.filterProposals walked received ownIndex = .ok filtered) :
    (∀ queued, queued ∈ filtered.queue.proposals ↔ queued ∈ received ∧ (queued.isAdd = true ∨
      IsValid received queued ∨ ∃ leaf, winner ownIndex leaf received = some queued)) ∧
    (filtered.queue.proposals.map (·.proposalReference)).Nodup ∧
    filtered.containsOwnUpdates = received.any (isUpdateOf ownIndex) ∧
    (filtered.assertionReached = true ↔ ∃ s r, [s, r].Sublist received ∧ Clash ownIndex s r) := by
  obtain ⟨state, loops, rest⟩ := except_bind_ok_iff.mp returns
  obtain ⟨queue, builds, same⟩ := except_bind_ok_iff.mp rest
  obtain rfl := except_pure_ok_iff.mp same
  have filtering := filtering_foldlM (filtering_new ownIndex) loops
  rw [List.nil_append] at filtering
  have keyed : ∀ ref queued, state.proposalPool ref = some queued → queued.proposalReference = ref := by
    intro ref queued found
    rw [filtering.pool] at found
    simpa using (lastWith_some found).1
  have pooled : ∀ queued, state.proposalPool queued.proposalReference = some queued ↔ queued ∈ received := by
    intro queued
    rw [filtering.pool]
    constructor
    · exact fun found => (lastWith_some found).2
    · intro member
      obtain ⟨last, found⟩ := Option.ne_none_iff_exists'.mp (lastWith_ne_none member
        (p := fun other => other.proposalReference == queued.proposalReference) (by simp))
      obtain ⟨equal, there⟩ := lastWith_some found
      rw [found, identified last there queued member (by simpa using equal)]
  have built := (built_new state.proposalPool).foldlM keyed builds
  rw [List.nil_append] at built
  refine ⟨fun queued => ?_, built.nodup_references keyed, filtering.own, filtering.asserted⟩
  rw [built.mem_proposals keyed, pooled, and_comm, List.mem_append, filtering.adds, mem_foldl_addRef, filtering.valid]
  refine and_congr_right fun member => or_congr ?_ (or_congr ?_ ?_)
  · constructor
    · rintro ⟨other, there, isAdd, equal⟩
      rwa [← identified other there queued member equal]
    · exact fun isAdd => ⟨queued, member, isAdd, rfl⟩
  · constructor
    · rintro ⟨other, valid, equal⟩
      have there : other ∈ received := valid.elim And.left List.mem_of_find?_eq_some
      rwa [← identified other there queued member equal]
    · exact fun valid => ⟨queued, valid, rfl⟩
  · constructor
    · rintro ⟨⟨leaf, other⟩, entry, equal⟩
      have wins : winner ownIndex leaf received = some other := by
        rw [← filtering.members]
        exact AList.mem_lookup_iff.mpr ((shuffles _).mem_iff.mp entry)
      rw [← identified other (winner_some wins).1 queued member equal]
      exact ⟨leaf, wins⟩
    · rintro ⟨leaf, wins⟩
      rw [← filtering.members] at wins
      exact ⟨⟨leaf, queued⟩, (shuffles _).mem_iff.mpr (AList.mem_lookup_iff.mp wins), rfl⟩

/-- **The filter follows the rules for commits**, if references tell proposals apart: for each leaf the winner and no
other proposal is kept, no own update is, and all that competes with nothing is kept once. The debug assertion is
reached exactly if the removal that a leaf asks for itself comes before a removal or an update of it. -/
theorem filterProposals_follows_rules
    (shuffles : ∀ entries, (walked entries).Perm entries) {filtered : Filtered Ref Content}
    (identified : ∀ first ∈ received, ∀ second ∈ received,
      first.proposalReference = second.proposalReference → first = second)
    (returns : ProposalQueue.filterProposals walked received ownIndex = .ok filtered) :
    (∀ leaf queued, queued ∈ filtered.queue.proposals ∧ queued.concerns leaf = true ↔
      winner ownIndex leaf received = some queued) ∧
    (∀ queued ∈ filtered.queue.proposals, queued.isUpdateOf ownIndex = false) ∧
    (filtered.containsOwnUpdates = true ↔ ∃ queued ∈ received, queued.isUpdateOf ownIndex = true) ∧
    (∀ queued ∈ received, queued.isAdd = true ∨ queued.isAlwaysValid = true → queued ∈ filtered.queue.proposals) ∧
    (∀ queued, queued ∈ filtered.queue.proposals ∧ queued.isExternalInit = true ↔
      received.find? isExternalInit = some queued) ∧
    (filtered.queue.proposals.map (·.proposalReference)).Nodup ∧
    (filtered.assertionReached = true ↔ ∃ s r, [s, r].Sublist received ∧ Clash ownIndex s r) := by
  obtain ⟨kept, nodup, own, asserted⟩ := mem_filterProposals shuffles identified returns
  have perLeaf : ∀ leaf queued, queued ∈ filtered.queue.proposals ∧ queued.concerns leaf = true ↔
      winner ownIndex leaf received = some queued := by
    intro leaf queued
    rw [kept]
    constructor
    · rintro ⟨⟨-, isAdd | valid | ⟨other, wins⟩⟩, concerned⟩
      · rw [(concerns_only concerned).1] at isAdd
        simp at isAdd
      · rcases valid with ⟨-, always⟩ | first
        · rw [(concerns_only concerned).2.1] at always
          simp at always
        · have isInit := List.find?_some first
          rw [(concerns_only concerned).2.2.1] at isInit
          simp at isInit
      · rwa [(concerns_only (winner_some wins).2.concerns).2.2.2 leaf concerned] at wins
    · intro wins
      obtain ⟨member, competes⟩ := winner_some wins
      exact ⟨⟨member, .inr (.inr ⟨leaf, wins⟩)⟩, competes.concerns⟩
  refine ⟨perLeaf, fun queued member => ?_, ?_, fun queued member kind => ?_, fun queued => ?_, nodup, asserted⟩
  · rw [Bool.eq_false_iff]
    intro update
    have wins := (perLeaf ownIndex queued).mp ⟨member, by simp [concerns, update]⟩
    obtain ⟨content, kind⟩ := (isUpdateOf_iff.mp update).1
    rcases (winner_some wins).2 with selfRemove | remove | ⟨-, other⟩
    · rw [isSelfRemoveOf_iff, kind] at selfRemove
      simp at selfRemove
    · rw [isRemoveOf_iff, kind] at remove
      simp at remove
    · exact other rfl
  · rw [own, List.any_eq_true]
  · refine (kept queued).mpr ⟨member, ?_⟩
    rcases kind with isAdd | always
    · exact .inl isAdd
    · exact .inr (.inl (.inl ⟨member, always⟩))
  · rw [kept]
    constructor
    · rintro ⟨⟨-, isAdd | valid | ⟨leaf, wins⟩⟩, isInit⟩
      · exact absurd isInit (by simp [isExternalInit_eq_false (.inl isAdd)])
      · rcases valid with ⟨-, always⟩ | first
        · exact absurd isInit (by simp [isExternalInit_eq_false (.inr always)])
        · exact first
      · exact absurd isInit (by simp [(concerns_only (winner_some wins).2.concerns).2.2.1])
    · intro first
      exact ⟨⟨List.mem_of_find?_eq_some first, .inr (.inl (.inr first))⟩, List.find?_some first⟩

end Result

namespace Sample

/-- A proposal of member `sender` with a reference of its own. -/
def proposed (reference sender : Nat) (proposal : Proposal Nat) : QueuedProposal Nat Nat :=
  ⟨proposal, reference, .member sender, .reference⟩

/-- The member at leaf 1 asks for its own removal, and then member 2 removes it. -/
def leavesAndIsRemoved : List (QueuedProposal Nat Nat) := [proposed 10 1 .selfRemove, proposed 11 2 (.remove 1)]

/-- **The debug assertion is reached.** -/
theorem filterProposals_asserts : ∃ filtered,
    ProposalQueue.filterProposals id leavesAndIsRemoved 0 = .ok filtered ∧ filtered.assertionReached = true := by
  refine ⟨_, rfl, ?_⟩
  decide

/-- In the other order it is not reached, and the removal that the member asks for is taken. -/
theorem removed_then_leaves : ∃ filtered,
    ProposalQueue.filterProposals id [proposed 11 2 (.remove 1), proposed 10 1 .selfRemove] 0 = .ok filtered ∧
      proposed 10 1 .selfRemove ∈ filtered.queue.proposals := by
  obtain ⟨filtered, returns⟩ : ∃ filtered,
      ProposalQueue.filterProposals id [proposed 11 2 (.remove 1), proposed 10 1 .selfRemove] 0 = .ok filtered :=
    ⟨_, rfl⟩
  have rules := filterProposals_follows_rules (fun _ => List.Perm.refl _) (by decide) returns
  exact ⟨filtered, returns, ((rules.1 1 _).mpr (by decide)).1⟩

end Sample

end KeyhiveEval.Mls
