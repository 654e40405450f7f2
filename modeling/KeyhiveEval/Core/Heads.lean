/-
**The heads of a group reach every accepted operation.**

A rebuild sees what is reachable from the heads. Delegations come in one after another, each after the
operations that it refers to, possibly more than once.

* `Holds` — what a store holds after the loop over the heads (`holds_delegationHeadsAfter`).
* `GroupState.Grown` — the states that a sequence of accepted operations leads to.
* `GroupState.Grown.finds` — every accepted operation is reachable from the heads, as long as no two
  delegations carry one payload: the loop looks for payloads where it means delegations.
* `GroupState.Grown.apart` — no head stands under another. A delegation that comes in again, above some
  heads but not above others, becomes a head once more, so this needs that it does not.
-/

import KeyhiveEval.Core.GroupSample
import KeyhiveEval.Lib.OrderedSets

set_option linter.unusedSectionVars false

namespace KeyhiveEval.Core

open Std Beekem OrderedSets

variable {T : Type}

/-! ### What an operation reaches -/

namespace MembershipOperation

/-- An operation reaches itself, what it refers to, what that refers to, and so on. -/
def Reaches : MembershipOperation T → MembershipOperation T → Prop :=
  Relation.ReflTransGen fun op before => before ∈ op.afterAuth

theorem Reaches.refl (op : MembershipOperation T) : op.Reaches op := Relation.ReflTransGen.refl

theorem Reaches.trans {first second third : MembershipOperation T} (one : first.Reaches second)
    (two : second.Reaches third) : first.Reaches third := Relation.ReflTransGen.trans one two

theorem reaches_proof {dlg proof : SignedDelegation T} (found : dlg.payload.proof = some proof) :
    Reaches (.delegation dlg) (.delegation proof) := .single (by simp [afterAuth, found])

theorem reaches_revocation {dlg : SignedDelegation T} {rev : SignedRevocation T}
    (listed : rev ∈ dlg.payload.afterRevocations) :
    Reaches (.delegation dlg) (.revocation rev) := .single (by simp [afterAuth, listed])

theorem reaches_of_mem_proofLineage {dlg ancestor : SignedDelegation T}
    (above : ancestor ∈ dlg.proofLineage) : Reaches (.delegation dlg) (.delegation ancestor) := by
  induction dlg using SignedDelegation.proofLineage.induct with
  | case1 => simp [SignedDelegation.proofLineage] at above
  | case2 delegate can proof revocations content issuer signature ih =>
    rw [SignedDelegation.proofLineage] at above
    have step : Reaches (.delegation ⟨⟨delegate, can, some proof, revocations, content⟩, issuer,
        signature⟩) (.delegation proof) := reaches_proof rfl
    rcases List.mem_cons.mp above with rfl | further
    · exact step
    · exact step.trans (ih further)

/-- What is closed under references holds everything that one of its operations reaches. -/
theorem Reaches.mem {ops : List (MembershipOperation T)}
    (closed : ∀ op ∈ ops, ∀ before ∈ op.afterAuth, before ∈ ops) {op other : MembershipOperation T}
    (reaches : op.Reaches other) (member : op ∈ ops) : other ∈ ops := by
  induction reaches with
  | refl => exact member
  | tail _ refers ih => exact closed _ ih _ refers

end MembershipOperation

/-! ### What a store holds -/

/-- A store holds a value under some key. -/
def Holds {V : Type} (store : ExtTreeMap MembershipDigest V) (value : V) : Prop :=
  ∃ key : MembershipDigest, store[key]? = some value

/-- The keys of a store are the digests of its values. -/
def Keyed {V : Type} (digest : V → MembershipDigest) (store : ExtTreeMap MembershipDigest V) : Prop :=
  ∀ (key : MembershipDigest) (value : V), store[key]? = some value → key = digest value

section Stores

variable {V : Type} {digest : V → MembershipDigest} {store : ExtTreeMap MembershipDigest V}

theorem not_holds_empty (value : V) : ¬ Holds (∅ : ExtTreeMap MembershipDigest V) value := by
  rintro ⟨key, found⟩
  simp at found

theorem Keyed.get (keyed : Keyed digest store) {value : V} (holds : Holds store value) :
    store[digest value]? = some value := by
  obtain ⟨key, found⟩ := holds
  rw [← keyed key value found]
  exact found

theorem keyed_empty : Keyed digest (∅ : ExtTreeMap MembershipDigest V) := by
  intro key value found
  simp at found

theorem Keyed.insert (keyed : Keyed digest store) (value : V) :
    Keyed digest (store.insert (digest value) value) := by
  intro key other found
  rw [getElem?_insert_iff] at found
  split at found
  · obtain rfl := Option.some.inj found
    assumption
  · exact keyed key other found

theorem Keyed.erase (keyed : Keyed digest store) (key : MembershipDigest) :
    Keyed digest (store.erase key) := by
  intro key' value found
  rw [ExtTreeMap.getElem?_erase] at found
  split at found
  · simp at found
  · exact keyed key' value found

/-- What is inserted replaces nothing but itself if digests tell the values apart. -/
theorem Keyed.holds_insert (keyed : Keyed digest store) {value other : V}
    (apart : ∀ old, Holds store old → digest old = digest value → old = value) :
    Holds (store.insert (digest value) value) other ↔ other = value ∨ Holds store other := by
  constructor
  · rintro ⟨key, found⟩
    rw [getElem?_insert_iff] at found
    split at found
    · exact .inl (Option.some.inj found).symm
    · exact .inr ⟨key, found⟩
  · rintro (rfl | holds)
    · exact ⟨digest other, by rw [getElem?_insert_iff, if_pos rfl]⟩
    · refine ⟨digest other, ?_⟩
      rw [getElem?_insert_iff]
      split
      · rename_i same
        rw [apart other holds same]
      · exact keyed.get holds

theorem mem_toList_of_holds (keyed : Keyed digest store) {value : V} (holds : Holds store value) :
    (digest value, value) ∈ store.toList :=
  ExtTreeMap.mem_toList_iff_getElem?_eq_some.mpr (keyed.get holds)

theorem holds_of_mem_toList {entry : MembershipDigest × V} (listed : entry ∈ store.toList) :
    store[entry.1]? = some entry.2 :=
  ExtTreeMap.mem_toList_iff_getElem?_eq_some.mp listed

end Stores

/-! ### The loops over the heads -/

namespace SignedDelegation

variable [DecidableEq T]

theorem isAncestorOf_iff {dlg other : SignedDelegation T} :
    dlg.isAncestorOf other = true ↔
      ∃ proof ∈ other.proofLineage, proof.payload.same dlg.payload = true := by
  rw [isAncestorOf, List.any_eq_true]

theorem isAncestorOf_of_mem {dlg other : SignedDelegation T} (above : dlg ∈ other.proofLineage) :
    dlg.isAncestorOf other = true :=
  isAncestorOf_iff.mpr ⟨dlg, above, by simp [Delegation.same]⟩

end SignedDelegation

namespace GroupState

variable [DecidableEq T] {hash : MembershipOperation T → MembershipDigest}

theorem getElem?_headStep (dlg : SignedDelegation T) (store : DelegationStore T)
    (entry : MembershipDigest × SignedDelegation T)
    (free : entry.1 = hash (.delegation dlg) → entry.2.isAncestorOf dlg = false)
    (key : MembershipDigest) :
    (headStep hash dlg store entry)[key]?
      = if key = hash (.delegation dlg) then
          if dlg.isAncestorOf entry.2 then store[key]? else some dlg
        else if entry.1 = key ∧ entry.2.isAncestorOf dlg then none
        else store[key]? := by
  have erased (store : DelegationStore T) :
      (store.erase entry.1)[key]? = if entry.1 = key then none else store[key]? := by
    rw [ExtTreeMap.getElem?_erase]
    exact if_congr LawfulEqCmp.compare_eq_iff_eq rfl rfl
  by_cases own : key = hash (.delegation dlg)
  · have kept : entry.2.isAncestorOf dlg = true → entry.1 ≠ key := fun under same => by
      rw [free (same.trans own)] at under
      contradiction
    rw [if_pos own, headStep]
    by_cases above : dlg.isAncestorOf entry.2 = true <;> by_cases under : entry.2.isAncestorOf dlg = true
    · rw [if_pos above, if_pos above, if_pos under, erased, if_neg (kept under)]
    · rw [if_pos above, if_pos above, if_neg under]
    · rw [if_neg above, if_neg above, if_pos under, erased, if_neg (kept under), insertDelegation,
        getElem?_insert_iff, if_pos own]
    · rw [if_neg above, if_neg above, if_neg under, insertDelegation, getElem?_insert_iff, if_pos own]
  · have first : (if dlg.isAncestorOf entry.2 = true then store
        else insertDelegation hash store dlg)[key]? = store[key]? := by
      split
      · rfl
      · rw [insertDelegation, getElem?_insert_iff, if_neg own]
    rw [if_neg own, headStep]
    by_cases under : entry.2.isAncestorOf dlg = true
    · rw [if_pos under, erased, first]
      exact if_congr (and_iff_left under).symm rfl rfl
    · rw [if_neg under, first, if_neg fun both => under both.2]

theorem getElem?_foldl_headStep (dlg : SignedDelegation T)
    (entries : List (MembershipDigest × SignedDelegation T)) (store : DelegationStore T)
    (free : ∀ entry ∈ entries, entry.1 = hash (.delegation dlg) → entry.2.isAncestorOf dlg = false)
    (key : MembershipDigest) (value : SignedDelegation T) :
    (entries.foldl (headStep hash dlg) store)[key]? = some value ↔
      if key = hash (.delegation dlg) then
        (value = dlg ∧ ∃ entry ∈ entries, dlg.isAncestorOf entry.2 = false) ∨
          (store[key]? = some value ∧ ∀ entry ∈ entries, dlg.isAncestorOf entry.2 = true)
      else store[key]? = some value ∧
        ∀ entry ∈ entries, entry.1 = key → entry.2.isAncestorOf dlg = false := by
  induction entries generalizing store with
  | nil => simp
  | cons entry entries ih =>
    rw [List.foldl_cons, ih _ fun entry member => free entry (List.mem_cons_of_mem _ member),
      getElem?_headStep dlg store entry (free entry List.mem_cons_self)]
    by_cases own : key = hash (.delegation dlg)
    · simp only [if_pos own]
      by_cases above : dlg.isAncestorOf entry.2 = true
      · simp [above]
      · have exhausted : (∃ entry ∈ entries, dlg.isAncestorOf entry.2 = false) ∨
            ∀ entry ∈ entries, dlg.isAncestorOf entry.2 = true := by
          by_cases all : ∀ entry ∈ entries, dlg.isAncestorOf entry.2 = true
          · exact .inr all
          · push Not at all
            simpa using Or.inl all
        rw [if_neg above]
        constructor
        · rintro (⟨same, -⟩ | ⟨same, -⟩)
          · exact .inl ⟨same, entry, List.mem_cons_self, by simpa using above⟩
          · exact .inl ⟨(Option.some.inj same).symm, entry, List.mem_cons_self, by simpa using above⟩
        · rintro (⟨rfl, -⟩ | ⟨-, all⟩)
          · exact exhausted.imp (fun some => ⟨rfl, some⟩) fun all => ⟨rfl, all⟩
          · exact absurd (all entry List.mem_cons_self) above
    · simp only [if_neg own]
      by_cases gone : entry.1 = key ∧ entry.2.isAncestorOf dlg = true
      · simp [gone]
      · simp only [if_neg gone, List.forall_mem_cons]
        rw [not_and, Bool.not_eq_true] at gone
        tauto

/-- The digest that a delegation is stored under. -/
abbrev digestOf (hash : MembershipOperation T → MembershipDigest) (dlg : SignedDelegation T) :
    MembershipDigest := hash (.delegation dlg)

/-- The digest that a revocation is stored under. -/
abbrev revDigestOf (hash : MembershipOperation T → MembershipDigest) (rev : SignedRevocation T) :
    MembershipDigest := hash (.revocation rev)

section Loops

variable {order : HashOrder T} {heads : DelegationStore T} {dlg : SignedDelegation T}
  {entry : MembershipDigest × SignedDelegation T}

theorem mem_delegations_iff (order : HashOrder T) (keyed : Keyed (digestOf hash) heads) :
    entry ∈ order.delegations heads.toList ↔ entry.1 = digestOf hash entry.2 ∧ Holds heads entry.2 := by
  rw [(order.delegations_perm _).mem_iff]
  constructor
  · intro listed
    have found := holds_of_mem_toList listed
    exact ⟨keyed _ _ found, _, found⟩
  · rintro ⟨key, holds⟩
    have listed := mem_toList_of_holds keyed holds
    rwa [← key] at listed

/-- **The heads after a delegation:** the heads that it does not stand under, and itself unless it
stands above all of them. -/
theorem holds_delegationHeadsAfter (keyed : Keyed (digestOf hash) heads)
    (apart : ∀ old, Holds heads old → digestOf hash old = digestOf hash dlg → old = dlg)
    (irrefl : dlg.isAncestorOf dlg = false) {other : SignedDelegation T} :
    Holds (delegationHeadsAfter hash order heads dlg) other ↔
      (other = dlg ∧ ∃ head, Holds heads head ∧ dlg.isAncestorOf head = false) ∨
        (Holds heads other ∧ other.isAncestorOf dlg = false) := by
  have listed {entry : MembershipDigest × SignedDelegation T} :
      entry ∈ order.delegations heads.toList ↔
        entry.1 = digestOf hash entry.2 ∧ Holds heads entry.2 := mem_delegations_iff order keyed
  have free : ∀ entry ∈ order.delegations heads.toList,
      entry.1 = digestOf hash dlg → entry.2.isAncestorOf dlg = false := by
    intro entry member here
    obtain ⟨key, holds⟩ := listed.mp member
    rw [apart _ holds (key.symm.trans here)]
    exact irrefl
  have at_key (key : MembershipDigest) := getElem?_foldl_headStep dlg _ heads free key other
  constructor
  · rintro ⟨key, found⟩
    have found := (at_key key).mp found
    split at found
    · rename_i own
      rcases found with ⟨same, entry, member, below⟩ | ⟨held, all⟩
      · exact .inl ⟨same, entry.2, (listed.mp member).2, below⟩
      · -- The delegation was a head before, and does not stand above itself.
        have same := apart other ⟨key, held⟩ ((keyed key other held).symm.trans own)
        refine .inr ⟨⟨key, held⟩, ?_⟩
        rw [same]
        exact irrefl
    · exact .inr ⟨⟨key, found.1⟩, found.2 (key, other) (listed.mpr
        ⟨keyed key other found.1, key, found.1⟩) rfl⟩
  · rintro (⟨rfl, head, holds, below⟩ | ⟨holds, free'⟩)
    · refine ⟨digestOf hash other, (at_key _).mpr ?_⟩
      rw [if_pos rfl]
      exact .inl ⟨rfl, (digestOf hash head, head), listed.mpr ⟨rfl, holds⟩, below⟩
    · refine ⟨digestOf hash other, (at_key _).mpr ?_⟩
      split
      · rename_i own
        have same := apart other holds own
        subst same
        exact .inl ⟨rfl, (digestOf hash other, other), listed.mpr ⟨rfl, holds⟩, irrefl⟩
      · refine ⟨keyed.get holds, fun entry member here => ?_⟩
        obtain ⟨key, held⟩ := listed.mp member
        have found := keyed.get held
        rw [← key, here, keyed.get holds] at found
        rw [← Option.some.inj found]
        exact free'

theorem keyed_headStep {store : DelegationStore T}
    (keyed : Keyed (digestOf hash) store) : Keyed (digestOf hash) (headStep hash dlg store entry) := by
  have inserted : Keyed (digestOf hash)
      (if dlg.isAncestorOf entry.2 = true then store else insertDelegation hash store dlg) := by
    split
    · exact keyed
    · exact keyed.insert dlg
  rw [headStep]
  split
  · exact inserted.erase _
  · exact inserted

theorem keyed_delegationHeadsAfter (keyed : Keyed (digestOf hash) heads) :
    Keyed (digestOf hash) (delegationHeadsAfter hash order heads dlg) := by
  have general (entries : List (MembershipDigest × SignedDelegation T)) (store : DelegationStore T)
      (keyed : Keyed (digestOf hash) store) :
      Keyed (digestOf hash) (entries.foldl (headStep hash dlg) store) := by
    induction entries generalizing store with
    | nil => exact keyed
    | cons entry entries ih => exact ih _ (keyed_headStep keyed)
  exact general _ _ keyed

theorem getElem?_foldl_erase (drops : SignedRevocation T → Bool)
    (entries : List (MembershipDigest × SignedRevocation T)) (store : RevocationStore T)
    (key : MembershipDigest) (value : SignedRevocation T) :
    (entries.foldl (fun heads entry => if drops entry.2 then heads.erase entry.1 else heads)
      store)[key]? = some value ↔
      store[key]? = some value ∧ ∀ entry ∈ entries, entry.1 = key → drops entry.2 = false := by
  induction entries generalizing store with
  | nil => simp
  | cons entry entries ih =>
    rw [List.foldl_cons, ih, List.forall_mem_cons]
    by_cases drop : drops entry.2 = true
    · rw [if_pos drop, ExtTreeMap.getElem?_erase]
      by_cases here : entry.1 = key
      · simp [here, drop]
      · simp [here, LawfulEqCmp.compare_eq_iff_eq]
    · simp [drop]

/-- **The revocation heads after a delegation** are those that it does not list. -/
theorem holds_revocationHeadsAfter {heads : RevocationStore T} (keyed : Keyed (revDigestOf hash) heads)
    {rev : SignedRevocation T} :
    Holds (revocationHeadsAfter order heads dlg) rev ↔
      Holds heads rev ∧ ∀ listed ∈ dlg.payload.afterRevocations, listed.same rev = false := by
  have at_key (key : MembershipDigest) := getElem?_foldl_erase
    (fun rev => dlg.payload.afterRevocations.any fun listed => listed.same rev)
    (order.revocations heads.toList) heads key rev
  constructor
  · rintro ⟨key, found⟩
    obtain ⟨held, kept⟩ := (at_key key).mp found
    have listed : (key, rev) ∈ order.revocations heads.toList :=
      (order.revocations_perm _).mem_iff.mpr (ExtTreeMap.mem_toList_iff_getElem?_eq_some.mpr held)
    exact ⟨⟨key, held⟩, by simpa using kept (key, rev) listed rfl⟩
  · rintro ⟨holds, unlisted⟩
    refine ⟨revDigestOf hash rev, (at_key _).mpr ⟨keyed.get holds, fun entry member here => ?_⟩⟩
    have found := holds_of_mem_toList ((order.revocations_perm _).mem_iff.mp member)
    rw [here, keyed.get holds] at found
    rw [← Option.some.inj found]
    simpa using unlisted

theorem keyed_revocationHeadsAfter {heads : RevocationStore T} (keyed : Keyed (revDigestOf hash) heads) :
    Keyed (revDigestOf hash) (revocationHeadsAfter order heads dlg) := fun key rev found =>
  keyed key rev ((getElem?_foldl_erase
    (fun rev => dlg.payload.afterRevocations.any fun listed => listed.same rev) _ _ key rev).mp found).1

end Loops

/-! ### Runs -/

/-- **The states of a group**, with the operations that were accepted on the way. A group starts with some
delegations by its own key. Operations come in after those that they refer to, and may come in
again; `admits` says which operations do. -/
inductive Grown (hash : MembershipOperation T → MembershipDigest)
    (admits : List (MembershipOperation T) → GroupState T → MembershipOperation T → Prop) :
    List (MembershipOperation T) → GroupState T → Prop
  | start {id : Identifier} {dlgs : List (SignedDelegation T)} (nonempty : dlgs ≠ [])
      (roots : ∀ dlg ∈ dlgs, dlg.payload.proof = none ∧ dlg.payload.afterRevocations = [] ∧
        dlg.issuer = id) :
      Grown hash admits (dlgs.map .delegation) (generated hash id dlgs)
  | add {ops : List (MembershipOperation T)} {state state' : GroupState T} {stores stores' : Stores T}
      {order : HashOrder T} {op : MembershipOperation T} {digest : MembershipDigest}
      (grown : Grown hash admits ops state) (known : ∀ before ∈ op.afterAuth, before ∈ ops)
      (meets : admits ops state op)
      (accepted : state.add hash order stores op = .ok (digest, state', stores')) :
      Grown hash admits (ops ++ [op]) state'

variable {ops : List (MembershipOperation T)} {state : GroupState T}

theorem Grown.exists_mem {admits : List (MembershipOperation T) → GroupState T → MembershipOperation T → Prop}
    (grown : Grown hash admits ops state) :
    ∃ op, op ∈ ops := by
  cases grown with
  | start nonempty roots =>
    obtain ⟨dlg, listed⟩ := List.exists_mem_of_ne_nil _ nonempty
    exact ⟨_, List.mem_map_of_mem listed⟩
  | add _ _ _ _ => exact ⟨_, List.mem_append_right _ List.mem_cons_self⟩

/-- **Digests and signatures tell operations apart.** -/
structure Identified (hash : MembershipOperation T → MembershipDigest)
    (ops : List (MembershipOperation T)) : Prop where
  digest : ∀ first ∈ ops, ∀ second ∈ ops, hash first = hash second → first = second
  signature : ∀ first ∈ ops, ∀ second ∈ ops, first.signature = second.signature → first = second

theorem Identified.left {more : List (MembershipOperation T)}
    (identified : Identified hash (ops ++ more)) : Identified hash ops where
  digest first here second there :=
    identified.digest first (List.mem_append_left _ here) second (List.mem_append_left _ there)
  signature first here second there :=
    identified.signature first (List.mem_append_left _ here) second (List.mem_append_left _ there)

def IsHead (state : GroupState T) : MembershipOperation T → Prop
  | .delegation dlg => Holds state.delegationHeads dlg
  | .revocation rev => Holds state.revocationHeads rev

/-- The operation is reachable from the heads. -/
def Finds (state : GroupState T) (op : MembershipOperation T) : Prop :=
  ∃ head, state.IsHead head ∧ head.Reaches op

/-- No two delegations carry one payload. -/
def OncePerPayload (ops : List (MembershipOperation T)) : Prop :=
  ∀ first second, .delegation first ∈ ops → .delegation second ∈ ops →
    first.payload.same second.payload = true → first = second

/-- A delegation that stands above one head stands above all of them. -/
def AboveAllOrNone (state : GroupState T) : MembershipOperation T → Prop
  | .delegation dlg => ∀ first second, Holds state.delegationHeads first →
      Holds state.delegationHeads second → dlg.isAncestorOf first = true →
        dlg.isAncestorOf second = true
  | .revocation _ => True

/-- **What holds in every state of a group** whose operations are told apart. -/
structure Sound (hash : MembershipOperation T → MembershipDigest) (ops : List (MembershipOperation T))
    (state : GroupState T) : Prop where
  keyed : Keyed (digestOf hash) state.delegationHeads
  revKeyed : Keyed (revDigestOf hash) state.revocationHeads
  within : ∀ head, state.IsHead head → head ∈ ops
  closed : ∀ op ∈ ops, ∀ before ∈ op.afterAuth, before ∈ ops
  nonempty : ∃ dlg, Holds state.delegationHeads dlg
  finds : ∀ op ∈ ops, state.Finds op

variable {op : MembershipOperation T}

theorem Finds.trans {other : MembershipOperation T} (found : state.Finds op)
    (reaches : op.Reaches other) : state.Finds other := by
  obtain ⟨head, isHead, above⟩ := found
  exact ⟨head, isHead, above.trans reaches⟩

theorem Finds.of_isHead (isHead : state.IsHead op) :
    state.Finds op := ⟨op, isHead, .refl op⟩

/-- Where no payload is signed twice, ancestors are what they are said to be. -/
theorem isAncestorOf_iff_mem (once : OncePerPayload ops)
    (closed : ∀ op ∈ ops, ∀ before ∈ op.afterAuth, before ∈ ops) {dlg other : SignedDelegation T}
    (here : .delegation dlg ∈ ops) (there : .delegation other ∈ ops) :
    dlg.isAncestorOf other = true ↔ dlg ∈ other.proofLineage := by
  refine ⟨fun above => ?_, SignedDelegation.isAncestorOf_of_mem⟩
  obtain ⟨proof, listed, same⟩ := SignedDelegation.isAncestorOf_iff.mp above
  have known := (MembershipOperation.reaches_of_mem_proofLineage listed).mem closed there
  rw [← once proof dlg known here same]
  exact listed

theorem not_mem_proofLineage_self (dlg : SignedDelegation T) : dlg ∉ dlg.proofLineage := fun above =>
  Nat.lt_irrefl _ (SignedDelegation.length_proofLineage_lt above)

theorem not_above_both {first second : SignedDelegation T} (above : first ∈ second.proofLineage) :
    second ∉ first.proofLineage := fun below =>
  Nat.lt_asymm (SignedDelegation.length_proofLineage_lt above)
    (SignedDelegation.length_proofLineage_lt below)

theorem closed_append
    (closed : ∀ op ∈ ops, ∀ before ∈ op.afterAuth, before ∈ ops)
    (known : ∀ before ∈ op.afterAuth, before ∈ ops) :
    ∀ op' ∈ ops ++ [op], ∀ before ∈ op'.afterAuth, before ∈ ops ++ [op] := by
  intro op' member before refers
  rcases List.mem_append.mp member with old | new
  · exact List.mem_append_left _ (closed op' old before refers)
  · rw [List.mem_singleton.mp new] at refers
    exact List.mem_append_left _ (known before refers)

section Steps

variable {ops : List (MembershipOperation T)} {state : GroupState T} {order : HashOrder T}

theorem Sound.afterDelegation {dlg : SignedDelegation T} (sound : Sound hash ops state)
    (known : ∀ before ∈ (MembershipOperation.delegation dlg).afterAuth, before ∈ ops)
    (identified : Identified hash (ops ++ [.delegation dlg]))
    (once : OncePerPayload (ops ++ [.delegation dlg])) :
    Sound hash (ops ++ [.delegation dlg]) (state.after hash order (.delegation dlg)) := by
  have closed := closed_append sound.closed known
  have new : .delegation dlg ∈ ops ++ [.delegation dlg] := by simp
  have old {op : MembershipOperation T} (member : op ∈ ops) : op ∈ ops ++ [.delegation dlg] :=
    List.mem_append_left _ member
  have headKnown {head : SignedDelegation T} (holds : Holds state.delegationHeads head) :
      .delegation head ∈ ops ++ [.delegation dlg] := old (sound.within (.delegation head) holds)
  have above {head : SignedDelegation T} (holds : Holds state.delegationHeads head) :
      head.isAncestorOf dlg = true ↔ head ∈ dlg.proofLineage :=
    isAncestorOf_iff_mem once closed (headKnown holds) new
  have below {head : SignedDelegation T} (holds : Holds state.delegationHeads head) :
      dlg.isAncestorOf head = true ↔ dlg ∈ head.proofLineage :=
    isAncestorOf_iff_mem once closed new (headKnown holds)
  have irrefl : dlg.isAncestorOf dlg = false := by
    rw [← Bool.not_eq_true, isAncestorOf_iff_mem once closed new new]
    exact not_mem_proofLineage_self dlg
  have apart : ∀ head, Holds state.delegationHeads head →
      digestOf hash head = digestOf hash dlg → head = dlg := fun head holds same =>
    MembershipOperation.delegation.inj (identified.digest _ (headKnown holds) _ new same)
  have heads {head : SignedDelegation T} :
      Holds (state.after hash order (.delegation dlg)).delegationHeads head ↔
        (head = dlg ∧ ∃ head, Holds state.delegationHeads head ∧ dlg.isAncestorOf head = false) ∨
          (Holds state.delegationHeads head ∧ head.isAncestorOf dlg = false) :=
    holds_delegationHeadsAfter sound.keyed apart irrefl
  have revHeads {rev : SignedRevocation T} :
      Holds (state.after hash order (.delegation dlg)).revocationHeads rev ↔
        Holds state.revocationHeads rev ∧
          ∀ listed ∈ dlg.payload.afterRevocations, listed.same rev = false :=
    holds_revocationHeadsAfter sound.revKeyed
  -- The delegation is a head, or it stands above all heads; then they all stay.
  have found : (state.after hash order (.delegation dlg)).Finds (.delegation dlg) := by
    by_cases free : ∃ head, Holds state.delegationHeads head ∧ dlg.isAncestorOf head = false
    · exact .of_isHead (heads.mpr (.inl ⟨rfl, free⟩))
    · obtain ⟨head, holds⟩ := sound.nonempty
      have under : dlg ∈ head.proofLineage := (below holds).mp (by
        by_contra not
        exact free ⟨head, holds, by simpa using not⟩)
      have stays : head.isAncestorOf dlg = false := by
        rw [← Bool.not_eq_true, above holds]
        exact not_above_both under
      exact ⟨.delegation head, heads.mpr (.inr ⟨holds, stays⟩),
        MembershipOperation.reaches_of_mem_proofLineage under⟩
  refine ⟨keyed_delegationHeadsAfter sound.keyed, keyed_revocationHeadsAfter sound.revKeyed,
    fun head isHead => ?_, closed, ?_, fun op member => ?_⟩
  · cases head with
    | delegation head =>
      rcases heads.mp isHead with ⟨rfl, -⟩ | ⟨holds, -⟩
      · exact new
      · exact headKnown holds
    | revocation rev => exact old (sound.within (.revocation rev) (revHeads.mp isHead).1)
  · -- Some old head stays, or the delegation has become one.
    obtain ⟨head, holds⟩ := sound.nonempty
    by_cases gone : head.isAncestorOf dlg = true
    · refine ⟨dlg, heads.mpr (.inl ⟨rfl, head, holds, ?_⟩)⟩
      rw [← Bool.not_eq_true, below holds]
      exact fun under => not_above_both under ((above holds).mp gone)
    · exact ⟨head, heads.mpr (.inr ⟨holds, by simpa using gone⟩)⟩
  · rcases List.mem_append.mp member with before | here
    · obtain ⟨head, isHead, reaches⟩ := sound.finds op before
      cases head with
      | delegation head =>
        by_cases gone : head.isAncestorOf dlg = true
        · exact found.trans ((MembershipOperation.reaches_of_mem_proofLineage
            ((above isHead).mp gone)).trans reaches)
        · exact ⟨.delegation head, heads.mpr (.inr ⟨isHead, by simpa using gone⟩), reaches⟩
      | revocation rev =>
        by_cases kept : ∀ listed ∈ dlg.payload.afterRevocations, listed.same rev = false
        · exact ⟨.revocation rev, revHeads.mpr ⟨isHead, kept⟩, reaches⟩
        · push Not at kept
          obtain ⟨listed, member, same⟩ := kept
          have knownRev : .revocation listed ∈ ops := known _ (by
            simp [MembershipOperation.afterAuth, member])
          have signatures : listed.signature = rev.signature := by
            have stamps : listed.stamp = rev.stamp := by simpa [SignedRevocation.same] using same
            exact congrArg Prod.snd stamps
          have equal : listed = rev := MembershipOperation.revocation.inj
            (identified.signature _ (old knownRev) _ (old (sound.within (.revocation rev) isHead))
              signatures)
          exact found.trans ((MembershipOperation.reaches_revocation (equal ▸ member)).trans reaches)
    · rw [List.mem_singleton.mp here]
      exact found

theorem Sound.afterRevocation {rev : SignedRevocation T} (sound : Sound hash ops state)
    (known : ∀ before ∈ (MembershipOperation.revocation rev).afterAuth, before ∈ ops)
    (identified : Identified hash (ops ++ [.revocation rev])) :
    Sound hash (ops ++ [.revocation rev]) (state.after hash order (.revocation rev)) := by
  have apart : ∀ head, Holds state.revocationHeads head →
      revDigestOf hash head = revDigestOf hash rev → head = rev := fun head holds same =>
    MembershipOperation.revocation.inj (identified.digest _
      (List.mem_append_left _ (sound.within (.revocation head) holds)) _ (by simp) same)
  have revHeads {head : SignedRevocation T} :
      Holds (state.after hash order (.revocation rev)).revocationHeads head ↔
        head = rev ∨ Holds state.revocationHeads head := sound.revKeyed.holds_insert apart
  refine ⟨sound.keyed, sound.revKeyed.insert rev, fun head isHead => ?_,
    closed_append sound.closed known, sound.nonempty, fun op member => ?_⟩
  · cases head with
    | delegation head => exact List.mem_append_left _ (sound.within (.delegation head) isHead)
    | revocation head =>
      rcases revHeads.mp isHead with rfl | holds
      · simp
      · exact List.mem_append_left _ (sound.within (.revocation head) holds)
  · rcases List.mem_append.mp member with before | here
    · obtain ⟨head, isHead, reaches⟩ := sound.finds op before
      refine ⟨head, ?_, reaches⟩
      cases head with
      | delegation head => exact isHead
      | revocation head => exact revHeads.mpr (.inr isHead)
    · rw [List.mem_singleton.mp here]
      exact .of_isHead (revHeads.mpr (.inl rfl))

/-- The heads of a group that starts with some delegations. -/
theorem holds_foldl_insertDelegation (dlgs : List (SignedDelegation T)) {store : DelegationStore T}
    (keyed : Keyed (digestOf hash) store)
    (apart : ∀ first second, first ∈ dlgs ∨ Holds store first → second ∈ dlgs →
      digestOf hash first = digestOf hash second → first = second) :
    Keyed (digestOf hash) (dlgs.foldl (insertDelegation hash) store) ∧
      ∀ dlg, Holds (dlgs.foldl (insertDelegation hash) store) dlg ↔ dlg ∈ dlgs ∨ Holds store dlg := by
  induction dlgs generalizing store with
  | nil => exact ⟨keyed, fun dlg => by simp⟩
  | cons first dlgs ih =>
    have inserted (dlg : SignedDelegation T) :
        Holds (insertDelegation hash store first) dlg ↔ dlg = first ∨ Holds store dlg :=
      keyed.holds_insert fun old holds => apart old first (.inr holds) List.mem_cons_self
    have keyedNext : Keyed (digestOf hash) (insertDelegation hash store first) := keyed.insert first
    obtain ⟨keyed', holds'⟩ := ih keyedNext fun one two here there => by
      refine apart one two ?_ (List.mem_cons_of_mem _ there)
      rw [inserted] at here
      rcases here with listed | rfl | old
      · exact .inl (List.mem_cons_of_mem _ listed)
      · exact .inl List.mem_cons_self
      · exact .inr old
    refine ⟨keyed', fun dlg => ?_⟩
    rw [List.foldl_cons, holds', inserted, List.mem_cons]
    tauto

theorem Sound.generated {id : Identifier} {dlgs : List (SignedDelegation T)} (nonempty : dlgs ≠ [])
    (roots : ∀ dlg ∈ dlgs, dlg.payload.proof = none ∧ dlg.payload.afterRevocations = [] ∧
      dlg.issuer = id)
    (identified : Identified hash (dlgs.map .delegation)) :
    Sound hash (dlgs.map .delegation) (generated hash id dlgs) := by
  obtain ⟨keyed, holds⟩ := holds_foldl_insertDelegation dlgs keyed_empty
    fun first second here there same => MembershipOperation.delegation.inj
      (identified.digest _ (List.mem_map_of_mem (here.resolve_right (not_holds_empty first))) _
        (List.mem_map_of_mem there) same)
  have heads (dlg : SignedDelegation T) :
      Holds (GroupState.generated hash id dlgs).delegationHeads dlg ↔ dlg ∈ dlgs :=
    (holds dlg).trans (or_iff_left (not_holds_empty dlg))
  refine ⟨keyed, keyed_empty, fun head isHead => ?_, fun op member before refers => ?_, ?_,
    fun op member => ?_⟩
  · cases head with
    | delegation dlg => exact List.mem_map_of_mem ((heads dlg).mp isHead)
    | revocation rev => exact absurd isHead (not_holds_empty rev)
  · obtain ⟨dlg, listed, rfl⟩ := List.mem_map.mp member
    obtain ⟨root, unrevoked, -⟩ := roots dlg listed
    simp [MembershipOperation.afterAuth, root, unrevoked] at refers
  · obtain ⟨dlg, listed⟩ := List.exists_mem_of_ne_nil dlgs nonempty
    exact ⟨dlg, (heads dlg).mpr listed⟩
  · obtain ⟨dlg, listed, rfl⟩ := List.mem_map.mp member
    exact .of_isHead ((heads dlg).mpr listed)

end Steps

section Runs

variable {ops : List (MembershipOperation T)} {state : GroupState T}
  {admits : List (MembershipOperation T) → GroupState T → MembershipOperation T → Prop}

variable {more : List (MembershipOperation T)}

theorem OncePerPayload.left (once : OncePerPayload (ops ++ more)) :
    OncePerPayload ops := fun first second here there =>
  once first second (List.mem_append_left _ here) (List.mem_append_left _ there)

/-- **The whole run:** what holds at the start and after each operation holds in every state. -/
theorem Grown.sound (grown : Grown hash admits ops state) (identified : Identified hash ops)
    (once : OncePerPayload ops) : Sound hash ops state := by
  induction grown with
  | start nonempty roots => exact .generated nonempty roots identified
  | @add ops state state' _ _ _ op _ _ known _ accepted ih =>
    obtain ⟨-, rfl⟩ := add_ok hash accepted
    have sound := ih identified.left once.left
    cases op with
    | delegation dlg => exact sound.afterDelegation known identified once
    | revocation rev => exact sound.afterRevocation known identified

/-- No head stands under another. -/
def HeadsApart (state : GroupState T) : Prop :=
  ∀ first second, Holds state.delegationHeads first → Holds state.delegationHeads second →
    first ∉ second.proofLineage

variable {dlg : SignedDelegation T}

theorem Sound.headsApart_after {order : HashOrder T}
    (sound : Sound hash ops state)
    (known : ∀ before ∈ (MembershipOperation.delegation dlg).afterAuth, before ∈ ops)
    (identified : Identified hash (ops ++ [.delegation dlg]))
    (once : OncePerPayload (ops ++ [.delegation dlg])) (apart : state.HeadsApart)
    (allOrNone : state.AboveAllOrNone (.delegation dlg)) :
    (state.after hash order (.delegation dlg)).HeadsApart := by
  have closed := closed_append sound.closed known
  have new : .delegation dlg ∈ ops ++ [.delegation dlg] := by simp
  have headKnown {head : SignedDelegation T} (holds : Holds state.delegationHeads head) :
      .delegation head ∈ ops ++ [.delegation dlg] :=
    List.mem_append_left _ (sound.within (.delegation head) holds)
  have heads {head : SignedDelegation T} :
      Holds (state.after hash order (.delegation dlg)).delegationHeads head ↔
        (head = dlg ∧ ∃ head, Holds state.delegationHeads head ∧ dlg.isAncestorOf head = false) ∨
          (Holds state.delegationHeads head ∧ head.isAncestorOf dlg = false) := by
    refine holds_delegationHeadsAfter sound.keyed (fun head holds same => ?_) ?_
    · exact MembershipOperation.delegation.inj (identified.digest _ (headKnown holds) _ new same)
    · rw [← Bool.not_eq_true, isAncestorOf_iff_mem once closed new new]
      exact not_mem_proofLineage_self dlg
  intro first second isFirst isSecond above
  have above' := SignedDelegation.isAncestorOf_of_mem above
  rcases heads.mp isFirst with ⟨rfl, head, holds, below⟩ | ⟨holds, below⟩
  · rcases heads.mp isSecond with ⟨rfl, -⟩ | ⟨holds', -⟩
    · exact not_mem_proofLineage_self _ above
    · rw [allOrNone second head holds' holds above'] at below
      contradiction
  · rcases heads.mp isSecond with ⟨rfl, -⟩ | ⟨holds', -⟩
    · rw [above'] at below
      contradiction
    · exact apart first second holds holds' above

theorem Grown.headsApart
    (grown : Grown hash (fun _ state op => state.AboveAllOrNone op) ops state)
    (identified : Identified hash ops) (once : OncePerPayload ops) : state.HeadsApart := by
  induction grown with
  | @start id dlgs nonempty roots =>
    intro first second isFirst isSecond above
    have sound := Sound.generated nonempty roots identified
    obtain ⟨dlg, listed, same⟩ := List.mem_map.mp (sound.within (.delegation second) isSecond)
    obtain rfl := MembershipOperation.delegation.inj same
    rw [SignedDelegation.proofLineage_of_root (roots dlg listed).1] at above
    simp at above
  | @add ops state state' _ _ _ op _ before known meets accepted ih =>
    obtain ⟨-, rfl⟩ := add_ok hash accepted
    have apart := ih identified.left once.left
    cases op with
    | delegation dlg =>
      exact (before.sound identified.left once.left).headsApart_after known identified once apart meets
    | revocation rev => exact apart

/-- **No accepted operation is forgotten, and no head stands under another**, in every state of a group
where no payload is signed twice, and where a delegation that stands above one of the heads as
it comes in stands above all of them. -/
theorem accepted_found_and_heads_apart
    (grown : Grown hash (fun _ state op => state.AboveAllOrNone op) ops state)
    (identified : Identified hash ops) (once : OncePerPayload ops) :
    (∀ op ∈ ops, state.Finds op) ∧ state.HeadsApart :=
  ⟨(grown.sound identified once).finds, grown.headsApart identified once⟩

theorem Grown.check {op : MembershipOperation T} (grown : Grown hash admits ops state)
    (order : HashOrder T) (known : ∀ before ∈ op.afterAuth, before ∈ ops) (meets : admits ops state op)
    (checked : state.check op = .ok ()) : Grown hash admits (ops ++ [op]) (state.after hash order op) := by
  obtain ⟨stores', accepted⟩ := add_of_check hash order ⟨∅, ∅⟩ checked
  exact grown.add known meets accepted

/-- **What comes in for the first time stands above no head.** -/
theorem Sound.aboveAllOrNone_of_new (sound : Sound hash ops state)
    (known : ∀ before ∈ (MembershipOperation.delegation dlg).afterAuth, before ∈ ops)
    (once : OncePerPayload (ops ++ [.delegation dlg])) (new : .delegation dlg ∉ ops) :
    state.AboveAllOrNone (.delegation dlg) := by
  intro first second isFirst isSecond above
  have member := sound.within (.delegation first) isFirst
  rw [isAncestorOf_iff_mem once (closed_append sound.closed known) (by simp)
    (List.mem_append_left _ member)] at above
  exact absurd ((MembershipOperation.reaches_of_mem_proofLineage above).mem sound.closed member) new

theorem Sound.holds_of_contains (sound : Sound hash ops state)
    (identified : Identified hash ops) (known : .delegation dlg ∈ ops)
    (present : state.delegationHeads.contains (digestOf hash dlg) = true) :
    Holds state.delegationHeads dlg := by
  obtain ⟨head, found⟩ := mem_iff_exists.mp (ExtTreeMap.contains_iff_mem.mp present)
  have same : head = dlg := MembershipOperation.delegation.inj (identified.digest _
    (sound.within (.delegation head) ⟨_, found⟩) _ known (sound.keyed _ _ found).symm)
  exact ⟨_, same ▸ found⟩

theorem identified_of_nodup (digests : (ops.map hash).Nodup)
    (signatures : (ops.map MembershipOperation.signature).Nodup) : Identified hash ops where
  digest _ here _ there := List.inj_on_of_nodup_map digests here there
  signature _ here _ there := List.inj_on_of_nodup_map signatures here there

theorem Identified.mono (identified : Identified hash more)
    (within : ∀ op ∈ ops, op ∈ more) : Identified hash ops where
  digest first here second there := identified.digest first (within first here) second (within second there)
  signature first here second there :=
    identified.signature first (within first here) second (within second there)

def samePayload : MembershipOperation T → MembershipOperation T → Bool
  | .delegation first, .delegation second => first.payload.same second.payload
  | _, _ => false

theorem oncePerPayload_of_signatures (identified : Identified hash ops)
    (signatures : ∀ first ∈ ops, ∀ second ∈ ops, samePayload first second = true →
      first.signature = second.signature) : OncePerPayload ops := fun _ _ here there same =>
  MembershipOperation.delegation.inj
    (identified.signature _ here _ there (signatures _ here _ there same))

end Runs

end GroupState

namespace Sample

open GroupState

/-- A group that starts with one delegation by its own key. -/
def founded : GroupState Unit := generated hash (principal 0) [admin]

theorem founded_grown
    (admits : List (MembershipOperation Unit) → GroupState Unit → MembershipOperation Unit → Prop) :
    Grown hash admits [.delegation admin] founded :=
  .start (List.cons_ne_nil admin []) (by simp [admin, delegation])

def later (order : HashOrder Unit) (ops : List (MembershipOperation Unit)) : GroupState Unit :=
  ops.foldl (fun state op => state.after hash order op) founded

theorem accepted_found_after_editor :
    (∀ op ∈ [MembershipOperation.delegation admin, .delegation editor],
      (later .sorted [.delegation editor]).Finds op) ∧
      (later .sorted [.delegation editor]).HeadsApart := by
  have identified : Identified hash [.delegation admin, .delegation editor] :=
    identified_of_nodup (by decide +kernel) (by decide +kernel)
  have once : OncePerPayload [.delegation admin, .delegation editor] :=
    oncePerPayload_of_signatures identified (by decide +kernel)
  have founded := founded_grown fun _ state op => state.AboveAllOrNone op
  have new : MembershipOperation.delegation editor ∉ [MembershipOperation.delegation admin] := by
    intro listed
    have same := congrArg MembershipOperation.signature (List.mem_singleton.mp listed)
    exact absurd same (by decide +kernel)
  have known : ∀ before ∈ (MembershipOperation.delegation editor).afterAuth,
      before ∈ [MembershipOperation.delegation admin] := fun before refers => refers
  exact accepted_found_and_heads_apart
    (founded.check .sorted known
      ((founded.sound identified.left once.left).aboveAllOrNone_of_new known once new) rfl)
    identified once

/-- Everyone's delegation, and the editor's once more. -/
def again : List (MembershipOperation Unit) :=
  [.delegation editor, .delegation coeditor, .delegation subeditor, .delegation editor]

/-- **A delegation that comes in again becomes a head**, above the head that was made under it. The
subeditor's delegation stands under the editor's, the coeditor's does not, and the loop puts the
editor's back on account of the latter. -/
theorem redelivered_delegation_is_a_head_above_another :
    ∃ (ops : List (MembershipOperation Unit)) (state : GroupState Unit),
      Grown hash (fun _ _ _ => True) ops state ∧ Identified hash ops ∧
        ¬ ((∀ op ∈ ops, state.Finds op) ∧ state.HeadsApart) := by
  have grown : Grown hash (fun _ _ _ => True) (.delegation admin :: again) (later .sorted again) := by
    refine ((((founded_grown _).check .sorted ?_ trivial rfl).check .sorted ?_ trivial rfl).check .sorted
      ?_ trivial rfl).check .sorted ?_ trivial rfl
    · exact fun before refers => refers
    · exact fun before refers => List.mem_append_left _ refers
    · rintro before refers
      rw [List.mem_singleton.mp refers]
      simp
    · rintro before refers
      rw [List.mem_singleton.mp refers]
      simp
  have identified : Identified hash (.delegation admin :: again) :=
    (identified_of_nodup (by decide +kernel) (by decide +kernel) : Identified hash [.delegation admin,
      .delegation editor, .delegation coeditor, .delegation subeditor]).mono (by simp [again])
  have sound := grown.sound identified (oncePerPayload_of_signatures identified (by decide +kernel))
  refine ⟨_, _, grown, identified, fun both => ?_⟩
  exact both.2 editor subeditor
    (sound.holds_of_contains identified (by simp [again]) (by decide +kernel))
    (sound.holds_of_contains identified (by simp [again]) (by decide +kernel)) List.mem_cons_self

end Sample

end KeyhiveEval.Core
