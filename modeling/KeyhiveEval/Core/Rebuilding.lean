/-
**What the operations of a rebuild do.**

One lemma for each function of the rebuild; the results about members are drawn from these.

* `Falls` — what a revocation takes out of play: the delegation it names, the delegations in play under
  it, and so on. The work list computes this, in whatever order the hash sets are walked
  (`Rebuild.cascade_spec`).
* `CascadeSpec.toDrop` — of all these only the delegation that the revocation names is dropped from
  the members.
* `Members.delegationsTo` — the members after a delegation and after a revocation.
-/

import KeyhiveEval.Core.Group
import KeyhiveEval.Lib.OrderedSets

namespace KeyhiveEval.Core

open Std Beekem OrderedSets

variable {T : Type}

namespace Rebuild

/-! ### The cascade of a revocation -/

/-- A delegation stands directly under another. -/
def Under (deps : ExtTreeMap Signature (ExtTreeSet Signature)) (above sig : Signature) : Prop :=
  sig ∈ deps.getD above ∅

instance (deps : ExtTreeMap Signature (ExtTreeSet Signature)) (above sig : Signature) :
    Decidable (Under deps above sig) := inferInstanceAs (Decidable (_ ∈ _))

/-- What leaves play with `start`. -/
inductive Falls (deps : ExtTreeMap Signature (ExtTreeSet Signature))
    (inPlay : ExtTreeMap Signature (SignedDelegation T)) (start : Signature) : Signature → Prop
  | start : Falls deps inPlay start start
  | under {above sig : Signature} (falls : Falls deps inPlay start above) (under : Under deps above sig)
      (played : sig ∈ inPlay) : Falls deps inPlay start sig

/-- What is in play is kept under its signature. -/
def PlayKeyed (inPlay : ExtTreeMap Signature (SignedDelegation T)) : Prop :=
  ∀ (sig : Signature) (dlg : SignedDelegation T), inPlay[sig]? = some dlg → dlg.signature = sig

theorem getElem?_erase_iff {V : Type} {map : ExtTreeMap Signature V} {gone key : Signature} :
    (map.erase gone)[key]? = if key = gone then none else map[key]? := by
  rw [ExtTreeMap.getElem?_erase]
  exact if_congr (LawfulEqCmp.compare_eq_iff_eq.trans eq_comm) rfl rfl

section Cascades

variable {order : HashOrder T} {deps : ExtTreeMap Signature (ExtTreeSet Signature)}

/-- **The delegations under a revoked one** are revoked, and those in play leave it for the work list. -/
structure AfterDependents (sigs : List Signature) (before after : Cascade T) : Prop where
  revoked : ∀ sig, sig ∈ after.revokedDlgs ↔ sig ∈ before.revokedDlgs ∨ sig ∈ sigs
  inPlay : ∀ sig : Signature, after.dlgsInPlay[sig]? =
    if sig ∈ sigs then none else before.dlgsInPlay[sig]?
  next : ∀ sig, sig ∈ after.nextToRevoke ↔
    sig ∈ before.nextToRevoke ∨ (sig ∈ sigs ∧ sig ∈ before.dlgsInPlay)
  toDrop : after.toDrop = before.toDrop
  work : after.dlgsInPlay.size + after.nextToRevoke.length
    ≤ before.dlgsInPlay.size + before.nextToRevoke.length

variable {cascade : Cascade T}

theorem afterDependents_one (keyed : PlayKeyed cascade.dlgsInPlay)
    (sig : Signature) : AfterDependents [sig] cascade (cascade.revokeDependent sig) := by
  rw [Cascade.revokeDependent]
  cases found : cascade.dlgsInPlay[sig]? with
  | none =>
    have absent : sig ∉ cascade.dlgsInPlay := fun member => by
      obtain ⟨dlg, present⟩ := mem_iff_exists.mp member
      simp [found] at present
    refine ⟨fun s => ?_, fun s => ?_, fun s => ?_, rfl, Nat.le_refl _⟩
    · simp only [mem_insert_iff, List.mem_singleton]
      tauto
    · simp only [List.mem_singleton]
      split
      · rename_i same
        rw [same, found]
      · rfl
    · simp only [List.mem_singleton]
      refine ⟨.inl, fun either => either.elim id fun both => absurd both.2 (both.1 ▸ absent)⟩
  | some dlg =>
    have name : dlg.signature = sig := keyed sig dlg found
    have present : sig ∈ cascade.dlgsInPlay := mem_iff_exists.mpr ⟨dlg, found⟩
    refine ⟨fun s => ?_, fun s => ?_, fun s => ?_, rfl, ?_⟩
    · simp only [mem_insert_iff, List.mem_singleton]
      tauto
    · simp only [getElem?_erase_iff, List.mem_singleton]
    · simp only [List.mem_cons, name, List.not_mem_nil, or_false]
      constructor
      · rintro (rfl | old)
        · exact .inr ⟨rfl, present⟩
        · exact .inl old
      · rintro (old | ⟨rfl, -⟩)
        · exact .inr old
        · exact .inl rfl
    · have positive : [sig].length ≤ cascade.dlgsInPlay.size :=
        length_le_size (List.nodup_singleton sig) (by simpa using present)
      rw [List.length_singleton] at positive
      simp only [List.length_cons, ExtTreeMap.size_erase,
        if_pos (ExtTreeMap.contains_iff_mem.mpr present)]
      omega

variable {before after : Cascade T}

theorem AfterDependents.keyed {sigs : List Signature}
    (step : AfterDependents sigs before after) (keyed : PlayKeyed before.dlgsInPlay) :
    PlayKeyed after.dlgsInPlay := by
  intro sig dlg found
  rw [step.inPlay] at found
  split at found
  · simp at found
  · exact keyed sig dlg found

theorem afterDependents_foldl (sigs : List Signature)
    (keyed : PlayKeyed cascade.dlgsInPlay) :
    AfterDependents sigs cascade (sigs.foldl Cascade.revokeDependent cascade) := by
  induction sigs generalizing cascade with
  | nil => exact ⟨by simp, by simp, by simp, rfl, Nat.le_refl _⟩
  | cons sig sigs ih =>
    have one := afterDependents_one keyed sig
    have rest := ih (one.keyed keyed)
    rw [List.foldl_cons]
    refine ⟨fun s => ?_, fun s => ?_, fun s => ?_, rest.toDrop.trans one.toDrop, rest.work.trans one.work⟩
    · rw [rest.revoked, one.revoked, List.mem_singleton, List.mem_cons]
      tauto
    · rw [rest.inPlay, one.inPlay]
      by_cases here : s = sig <;> by_cases later : s ∈ sigs <;> simp [here, later]
    · have still : s ∈ (cascade.revokeDependent sig).dlgsInPlay ↔ s ≠ sig ∧ s ∈ cascade.dlgsInPlay := by
        rw [mem_iff_exists, mem_iff_exists, one.inPlay]
        by_cases here : s = sig <;> simp [here]
      rw [rest.next, one.next, still, List.mem_singleton, List.mem_cons]
      by_cases here : s = sig
      · subst here
        tauto
      · tauto

/-- **One turn of the work list:** a signature is revoked with what stands under it, and leaves play. -/
structure AfterStep (deps : ExtTreeMap Signature (ExtTreeSet Signature)) (sig : Signature)
    (before after : Cascade T) : Prop where
  revoked : ∀ s, s ∈ after.revokedDlgs ↔ s ∈ before.revokedDlgs ∨ s = sig ∨ Under deps sig s
  inPlay : ∀ s : Signature, after.dlgsInPlay[s]? =
    if s = sig ∨ Under deps sig s then none else before.dlgsInPlay[s]?
  next : ∀ s, s ∈ after.nextToRevoke ↔
    s ∈ before.nextToRevoke ∨ (Under deps sig s ∧ s ≠ sig ∧ s ∈ before.dlgsInPlay)
  toDrop : after.toDrop = before.toDrop ++
    (before.dlgsInPlay[sig]?.toList.map fun dlg => (dlg.payload.delegate.id, sig))
  work : after.dlgsInPlay.size + after.nextToRevoke.length
    ≤ before.dlgsInPlay.size + before.nextToRevoke.length

theorem revoke_spec (cascade : Cascade T) (sig : Signature) :
    (∀ s, s ∈ (cascade.revoke sig).revokedDlgs ↔ s ∈ cascade.revokedDlgs ∨ s = sig) ∧
      (∀ s : Signature, (cascade.revoke sig).dlgsInPlay[s]? =
        if s = sig then none else cascade.dlgsInPlay[s]?) ∧
      (cascade.revoke sig).nextToRevoke = cascade.nextToRevoke ∧
      (cascade.revoke sig).toDrop = cascade.toDrop ++
        (cascade.dlgsInPlay[sig]?.toList.map fun dlg => (dlg.payload.delegate.id, sig)) ∧
      (cascade.revoke sig).dlgsInPlay.size ≤ cascade.dlgsInPlay.size := by
  rw [Cascade.revoke]
  cases found : cascade.dlgsInPlay[sig]? with
  | none =>
    refine ⟨fun s => ?_, fun s => ?_, rfl, by simp, Nat.le_refl _⟩
    · simp only [mem_insert_iff]
      tauto
    · simp only
      split
      · rename_i same
        rw [same, found]
      · rfl
  | some dlg =>
    refine ⟨fun s => ?_, fun s => ?_, rfl, by simp, ExtTreeMap.size_erase_le⟩
    · simp only [mem_insert_iff]
      tauto
    · simp only [getElem?_erase_iff]

theorem afterStep (cascade : Cascade T) (keyed : PlayKeyed cascade.dlgsInPlay) (sig : Signature) :
    AfterStep deps sig cascade (cascade.step order deps sig) := by
  obtain ⟨revoked, inPlay, next, toDrop, size⟩ := revoke_spec cascade sig
  have keyed' : PlayKeyed (cascade.revoke sig).dlgsInPlay := by
    intro s dlg found
    rw [inPlay] at found
    split at found
    · simp at found
    · exact keyed s dlg found
  have still (s : Signature) :
      s ∈ (cascade.revoke sig).dlgsInPlay ↔ s ≠ sig ∧ s ∈ cascade.dlgsInPlay := by
    rw [mem_iff_exists, mem_iff_exists, inPlay]
    by_cases here : s = sig <;> simp [here]
  rw [Cascade.step]
  cases found : deps[sig]? with
  | none =>
    have bare (s : Signature) : ¬ Under deps sig s := by
      simp [Under, ExtTreeMap.getD_eq_getD_getElem?, found]
    refine ⟨fun s => ?_, fun s => ?_, fun s => ?_, toDrop, by simp only [next]; omega⟩
    · simp [revoked, bare]
    · simp [inPlay, bare]
    · simp [next, bare]
  | some sigs =>
    have under (s : Signature) : s ∈ order.signatures sigs.toList ↔ Under deps sig s := by
      rw [(order.signatures_perm _).mem_iff, ExtTreeSet.mem_toList]
      simp [Under, ExtTreeMap.getD_eq_getD_getElem?, found]
    have rest := afterDependents_foldl (order.signatures sigs.toList) keyed'
    refine ⟨fun s => ?_, fun s => ?_, fun s => ?_, rest.toDrop.trans toDrop, ?_⟩
    · rw [rest.revoked, revoked, under, or_assoc]
    · rw [rest.inPlay, inPlay]
      simp only [under]
      by_cases here : s = sig <;> by_cases below : Under deps sig s <;> simp [here, below]
    · rw [rest.next, next, under, still]
    · refine rest.work.trans ?_
      rw [next]
      omega

/-- **The state of the work list** after its first turn: what has left play falls, and it waits in the list
or what stands under it has left play too. -/
structure Working (deps : ExtTreeMap Signature (ExtTreeSet Signature)) (state : Rebuild T)
    (start : Signature) (cascade : Cascade T) : Prop where
  within : ∀ (s : Signature) (dlg : SignedDelegation T), cascade.dlgsInPlay[s]? = some dlg →
    state.dlgsInPlay[s]? = some dlg
  left : ∀ s, s ∈ state.dlgsInPlay → s ∉ cascade.dlgsInPlay → Falls deps state.dlgsInPlay start s
  next : ∀ s ∈ cascade.nextToRevoke, Falls deps state.dlgsInPlay start s ∧ s ∉ cascade.dlgsInPlay
  startGone : start ∉ cascade.dlgsInPlay
  startRevoked : start ∈ cascade.revokedDlgs
  revoked : ∀ s ∈ cascade.revokedDlgs, s ∈ state.revokedDlgs ∨ s = start ∨
    ∃ above, Falls deps state.dlgsInPlay start above ∧ Under deps above s
  kept : ∀ s ∈ state.revokedDlgs, s ∈ cascade.revokedDlgs
  done : ∀ s, s = start ∨ (s ∈ state.dlgsInPlay ∧ s ∉ cascade.dlgsInPlay) →
    s ∈ cascade.nextToRevoke ∨
      ∀ s', Under deps s s' → s' ∈ cascade.revokedDlgs ∧ s' ∉ cascade.dlgsInPlay

variable {sig : Signature}

theorem AfterStep.mem_inPlay {s : Signature}
    (step : AfterStep deps sig before after) :
    s ∈ after.dlgsInPlay ↔ s ≠ sig ∧ ¬ Under deps sig s ∧ s ∈ before.dlgsInPlay := by
  rw [mem_iff_exists, mem_iff_exists, step.inPlay]
  by_cases here : s = sig <;> by_cases below : Under deps sig s <;> simp [here, below]

theorem AfterStep.keyed
    (step : AfterStep deps sig before after) (keyed : PlayKeyed before.dlgsInPlay) :
    PlayKeyed after.dlgsInPlay := by
  intro s dlg found
  rw [step.inPlay] at found
  split at found
  · simp at found
  · exact keyed s dlg found

variable {state : Rebuild T} {start : Signature}

theorem Working.first
    (step : AfterStep deps start ⟨state.dlgsInPlay, state.revokedDlgs, [], []⟩ cascade) :
    Working deps state start cascade where
  within s dlg found := by
    rw [step.inPlay] at found
    split at found
    · simp at found
    · exact found
  left s played gone := by
    rw [step.mem_inPlay] at gone
    by_cases here : s = start
    · exact here ▸ .start
    · exact .under .start (not_not.mp fun bare => gone ⟨here, bare, played⟩) played
  next s waits := by
    have cases' := (step.next s).mp waits
    simp only [List.not_mem_nil, false_or] at cases'
    exact ⟨.under .start cases'.1 cases'.2.2, fun stays => (step.mem_inPlay.mp stays).2.1 cases'.1⟩
  startGone stays := (step.mem_inPlay.mp stays).1 rfl
  startRevoked := (step.revoked start).mpr (.inr (.inl rfl))
  revoked s isRevoked := by
    rcases (step.revoked s).mp isRevoked with old | rfl | below
    · exact .inl old
    · exact .inr (.inl rfl)
    · exact .inr (.inr ⟨start, .start, below⟩)
  kept s old := (step.revoked s).mpr (.inl old)
  done s gone := by
    by_cases here : s = start
    · exact .inr fun s' below => ⟨(step.revoked s').mpr (.inr (.inr (here ▸ below))),
        fun stays => (step.mem_inPlay.mp stays).2.1 (here ▸ below)⟩
    · obtain ⟨played, gone⟩ := gone.resolve_left here
      rw [step.mem_inPlay] at gone
      have below : Under deps start s := not_not.mp fun bare => gone ⟨here, bare, played⟩
      exact .inl ((step.next s).mpr (.inr ⟨below, here, played⟩))

theorem Working.step {rest : List Signature} (working : Working deps state start before)
    (todo : before.nextToRevoke = sig :: rest)
    (step : AfterStep deps sig { before with nextToRevoke := rest } after) :
    Working deps state start after ∧ after.toDrop = before.toDrop := by
  obtain ⟨falls, gone⟩ := working.next sig (todo ▸ List.mem_cons_self)
  have mem_inPlay {s : Signature} :
      s ∈ after.dlgsInPlay ↔ s ≠ sig ∧ ¬ Under deps sig s ∧ s ∈ before.dlgsInPlay := step.mem_inPlay
  have played {s : Signature} (stays : s ∈ before.dlgsInPlay) : s ∈ state.dlgsInPlay := by
    obtain ⟨dlg, found⟩ := mem_iff_exists.mp stays
    exact mem_iff_exists.mpr ⟨dlg, working.within s dlg found⟩
  have lost {s : Signature} (old : s ∈ before.dlgsInPlay) (gone' : s ∉ after.dlgsInPlay) :
      s ≠ sig ∧ Under deps sig s := by
    have here : s ≠ sig := fun same => gone (same ▸ old)
    exact ⟨here, not_not.mp fun bare => gone' (mem_inPlay.mpr ⟨here, bare, old⟩)⟩
  refine ⟨⟨fun s dlg found => ?_, fun s isPlayed gone' => ?_, fun s waits => ?_,
    fun stays => working.startGone (mem_inPlay.mp stays).2.2,
    (step.revoked start).mpr (.inl working.startRevoked), fun s isRevoked => ?_,
    fun s old => (step.revoked s).mpr (.inl (working.kept s old)), fun s gone' => ?_⟩, ?_⟩
  · rw [step.inPlay] at found
    split at found
    · simp at found
    · exact working.within s dlg found
  · by_cases old : s ∈ before.dlgsInPlay
    · exact .under falls (lost old gone').2 isPlayed
    · exact working.left s isPlayed old
  · rcases (step.next s).mp waits with old | ⟨below, -, old⟩
    · obtain ⟨falls', gone'⟩ := working.next s (todo ▸ List.mem_cons_of_mem _ old)
      exact ⟨falls', fun stays => gone' (mem_inPlay.mp stays).2.2⟩
    · exact ⟨.under falls below (played old), fun stays => (mem_inPlay.mp stays).2.1 below⟩
  · rcases (step.revoked s).mp isRevoked with old | rfl | below
    · exact working.revoked s old
    · -- A signature of the list is the first one, or stands under one that fell before it.
      cases falls with
      | start => exact .inr (.inl rfl)
      | under above below _ => exact .inr (.inr ⟨_, above, below⟩)
    · exact .inr (.inr ⟨sig, falls, below⟩)
  · have processed (done : ∀ s', Under deps s s' → s' ∈ before.revokedDlgs ∧ s' ∉ before.dlgsInPlay) :
        ∀ s', Under deps s s' → s' ∈ after.revokedDlgs ∧ s' ∉ after.dlgsInPlay := fun s' below =>
      ⟨(step.revoked s').mpr (.inl (done s' below).1),
        fun stays => (done s' below).2 (mem_inPlay.mp stays).2.2⟩
    have again (old : s = start ∨ (s ∈ state.dlgsInPlay ∧ s ∉ before.dlgsInPlay)) :
        s ∈ after.nextToRevoke ∨
          ∀ s', Under deps s s' → s' ∈ after.revokedDlgs ∧ s' ∉ after.dlgsInPlay := by
      rcases working.done s old with waits | done
      · rcases List.mem_cons.mp (todo ▸ waits) with rfl | waits
        · exact .inr fun s' below => ⟨(step.revoked s').mpr (.inr (.inr below)),
            fun stays => (mem_inPlay.mp stays).2.1 below⟩
        · exact .inl ((step.next s).mpr (.inl waits))
      · exact .inr (processed done)
    rcases gone' with here | ⟨isPlayed, gone'⟩
    · exact again (.inl here)
    · by_cases old : s ∈ before.dlgsInPlay
      · obtain ⟨here, below⟩ := lost old gone'
        exact .inl ((step.next s).mpr (.inr ⟨below, here, old⟩))
      · exact again (.inr ⟨isPlayed, old⟩)
  · rw [step.toDrop, ExtTreeMap.getElem?_eq_none gone]
    simp

theorem Working.cascadeLoop (order : HashOrder T) (fuel : Nat)
    (working : Working deps state start cascade) (keyed : PlayKeyed cascade.dlgsInPlay)
    (enough : cascade.dlgsInPlay.size + cascade.nextToRevoke.length ≤ fuel) :
    Working deps state start (cascadeLoop order deps fuel cascade) ∧
      (cascadeLoop order deps fuel cascade).nextToRevoke = [] ∧
      (cascadeLoop order deps fuel cascade).toDrop = cascade.toDrop := by
  induction fuel generalizing cascade with
  | zero =>
    have none : cascade.nextToRevoke = [] := List.eq_nil_of_length_eq_zero (by omega)
    exact ⟨working, none, rfl⟩
  | succ fuel ih =>
    rw [Rebuild.cascadeLoop]
    cases todo : cascade.nextToRevoke with
    | nil => exact ⟨working, todo, rfl⟩
    | cons sig rest =>
      have step : AfterStep deps sig { cascade with nextToRevoke := rest }
          (Cascade.step order deps { cascade with nextToRevoke := rest } sig) :=
        afterStep { cascade with nextToRevoke := rest } keyed sig
      obtain ⟨working', toDrop⟩ := working.step todo step
      obtain ⟨final, none, drop⟩ := ih working' (step.keyed keyed) (by
        have := step.work
        rw [todo, List.length_cons] at enough
        simp only at this
        omega)
      exact ⟨final, none, drop.trans toDrop⟩

end Cascades

section Spec

variable {order : HashOrder T} {state : Rebuild T} {sig : Signature}

/-- **What a revocation does to play, in any order of the hash sets.** -/
structure CascadeSpec (state : Rebuild T) (sig : Signature) (result : Cascade T) : Prop where
  gone : ∀ s, Falls state.reverseDlgDepMap state.dlgsInPlay sig s → s ∉ result.dlgsInPlay
  stays : ∀ s : Signature, ¬ Falls state.reverseDlgDepMap state.dlgsInPlay sig s →
    result.dlgsInPlay[s]? = state.dlgsInPlay[s]?
  revoked : ∀ s, s ∈ result.revokedDlgs ↔ s ∈ state.revokedDlgs ∨ s = sig ∨
    ∃ above, Falls state.reverseDlgDepMap state.dlgsInPlay sig above ∧
      Under state.reverseDlgDepMap above s
  toDrop : result.toDrop =
    state.dlgsInPlay[sig]?.toList.map fun dlg => (dlg.payload.delegate.id, sig)

theorem cascade_spec (keyed : PlayKeyed state.dlgsInPlay) :
    CascadeSpec state sig (state.cascade order sig) := by
  have step : AfterStep state.reverseDlgDepMap sig ⟨state.dlgsInPlay, state.revokedDlgs, [], []⟩
      (Cascade.step order state.reverseDlgDepMap ⟨state.dlgsInPlay, state.revokedDlgs, [], []⟩ sig) :=
    afterStep ⟨state.dlgsInPlay, state.revokedDlgs, [], []⟩ keyed sig
  obtain ⟨working, none, drop⟩ := (Working.first step).cascadeLoop order
    (state.dlgsInPlay.size + 1) (step.keyed keyed) (by
      have := step.work
      simp only [List.length_nil] at this
      omega)
  have falls {s : Signature} (below : Falls state.reverseDlgDepMap state.dlgsInPlay sig s) :
      s = sig ∨ (s ∈ state.dlgsInPlay ∧ s ∉ (state.cascade order sig).dlgsInPlay) := by
    induction below with
    | start => exact .inl rfl
    | @under above s _ under played ih =>
      rcases working.done above ih with waits | done
      · rw [none] at waits
        simp at waits
      · exact .inr ⟨played, (done s under).2⟩
  refine ⟨fun s below => ?_, fun s free => ?_, fun s => ⟨working.revoked s, ?_⟩, ?_⟩
  · rcases falls below with rfl | ⟨-, gone⟩
    · exact working.startGone
    · exact gone
  · by_cases present : s ∈ (state.cascade order sig).dlgsInPlay
    · obtain ⟨dlg, found⟩ := mem_iff_exists.mp present
      rw [found, working.within s dlg found]
    · rw [ExtTreeMap.getElem?_eq_none present, ExtTreeMap.getElem?_eq_none]
      exact fun played => free (working.left s played present)
  · rintro (old | rfl | ⟨above, below, under⟩)
    · exact working.kept s old
    · exact working.startRevoked
    · rcases working.done above (falls below) with waits | done
      · rw [none] at waits
        simp at waits
      · exact (done s under).1
  · show (Rebuild.cascadeLoop _ _ _ _).toDrop = _
    refine drop.trans ?_
    rw [step.toDrop]
    rfl

end Spec

/-! ### The members -/

theorem delegationsTo_insert (members : Members T) (id other : Identifier)
    (dlgs : NonEmpty (SignedDelegation T)) :
    Members.delegationsTo (members.insert id dlgs) other
      = if other = id then dlgs.toList else members.delegationsTo other := by
  unfold Members.delegationsTo
  rw [getElem?_insert_iff]
  by_cases here : other = id
  · rw [if_pos here, if_pos here]
  · rw [if_neg here, if_neg here]

theorem delegationsTo_erase (members : Members T) (id other : Identifier) :
    Members.delegationsTo (members.erase id) other
      = if other = id then [] else members.delegationsTo other := by
  unfold Members.delegationsTo
  rw [ExtTreeMap.getElem?_erase]
  by_cases here : other = id
  · subst here
    simp
  · rw [if_neg here, if_neg fun same => here (LawfulEqCmp.compare_eq_iff_eq.mp same).symm]

/-- **An admitted delegation is listed last** among the delegations to its delegate. -/
theorem delegationsTo_enlist (state : Rebuild T) (dlg : SignedDelegation T) (id : Identifier) :
    (state.enlist dlg).members.delegationsTo id
      = if dlg.signature ∉ state.revokedDlgs ∧ id = dlg.payload.delegate.id then
          state.members.delegationsTo id ++ [dlg]
        else state.members.delegationsTo id := by
  rw [enlist]
  by_cases revoked : dlg.signature ∈ state.revokedDlgs
  · rw [if_pos (ExtTreeSet.contains_iff_mem.mpr revoked), if_neg fun both => both.1 revoked]
  · rw [if_neg fun found => revoked (ExtTreeSet.contains_iff_mem.mp found)]
    show Members.delegationsTo (ExtTreeMap.insert _ _ _) id = _
    rw [delegationsTo_insert]
    by_cases here : id = dlg.payload.delegate.id
    · rw [if_pos here, if_pos ⟨revoked, here⟩, here, Members.delegationsTo]
      cases state.members[dlg.payload.delegate.id]? <;> rfl
    · rw [if_neg here, if_neg fun both => here both.2]

theorem delegationsTo_dropMember (members : Members T) (id other : Identifier) (sig : Signature) :
    (dropMember members (id, sig)).delegationsTo other
      = if other = id then (members.delegationsTo id).filter fun dlg => dlg.signature ≠ sig
        else members.delegationsTo other := by
  rw [dropMember]
  cases made : NonEmpty.fromVec ((members.delegationsTo id).filter fun dlg => dlg.signature ≠ sig) with
  | none =>
    simp only
    rw [delegationsTo_erase, NonEmpty.fromVec_eq_none.mp made]
  | some dlgs =>
    simp only
    rw [delegationsTo_insert, NonEmpty.toList_fromVec made]

/-- **A revocation drops what it names, and nothing else:** under whom the delegation in play is listed,
the delegations with its signature go. -/
theorem delegationsTo_applyRevocation {order : HashOrder T} {state : Rebuild T}
    (keyed : PlayKeyed state.dlgsInPlay) (rev : SignedRevocation T) (id : Identifier) :
    (state.applyRevocation order rev).members.delegationsTo id
      = if (state.dlgsInPlay[rev.payload.revoke.signature]?.map fun dlg => dlg.payload.delegate.id)
            = some id then
          (state.members.delegationsTo id).filter fun dlg => dlg.signature ≠ rev.payload.revoke.signature
        else state.members.delegationsTo id := by
  have spec : CascadeSpec state _ (state.cascade order rev.payload.revoke.signature) := cascade_spec keyed
  show Members.delegationsTo (List.foldl dropMember state.members
    (state.cascade order rev.payload.revoke.signature).toDrop) id = _
  rw [spec.toDrop]
  cases state.dlgsInPlay[rev.payload.revoke.signature]? with
  | none => simp
  | some dlg =>
    simp only [Option.toList_some, List.map_cons, List.map_nil, List.foldl_cons, List.foldl_nil,
      Option.map_some, Option.some.injEq]
    rw [delegationsTo_dropMember]
    by_cases here : id = dlg.payload.delegate.id
    · rw [if_pos here, if_pos here.symm, here]
    · rw [if_neg here, if_neg (Ne.symm here)]

/-! ### Runs -/

def run (vk : Identifier) (order : HashOrder T) (ops : List (MembershipOperation T)) : Rebuild T :=
  ops.foldl (take vk order) start

theorem run_append (vk : Identifier) (order : HashOrder T) (ops more : List (MembershipOperation T)) :
    run vk order (ops ++ more) = more.foldl (take vk order) (run vk order ops) := List.foldl_append

theorem run_snoc (vk : Identifier) (order : HashOrder T) (ops : List (MembershipOperation T))
    (op : MembershipOperation T) : run vk order (ops ++ [op]) = (run vk order ops).take vk order op :=
  run_append vk order ops [op]

/-- A property of the start that every operation keeps holds in every state of a rebuild. -/
theorem run_induction {vk : Identifier} {order : HashOrder T}
    {motive : List (MembershipOperation T) → Rebuild T → Prop} (base : motive [] start)
    (step : ∀ ops op, motive ops (run vk order ops) →
      motive (ops ++ [op]) ((run vk order ops).take vk order op))
    (ops : List (MembershipOperation T)) : motive ops (run vk order ops) := by
  induction ops using List.reverseRecOn with
  | nil => exact base
  | append_singleton ops op ih =>
    rw [run_snoc]
    exact step ops op ih

/-- What a delegation is admitted by: a proof that is alive, an alternative to it, or the group's own key. -/
def Admits (vk : Identifier) (state : Rebuild T) (dlg : SignedDelegation T) : Prop :=
  match dlg.payload.proof with
  | some proof => state.proofIsDead proof = false ∨ state.hasAlternative vk proof = true
  | none => dlg.issuer = vk

/-- **The cases of a delegation:** it is admitted or not; either way it is known to stand under its
proof. -/
theorem takeDelegation_cases (vk : Identifier) (state : Rebuild T) (dlg : SignedDelegation T) :
    ∃ deps, (∀ above sig, Under deps above sig ↔ Under state.reverseDlgDepMap above sig ∨
        (sig = dlg.signature ∧ ∃ proof, dlg.payload.proof = some proof ∧ above = proof.signature)) ∧
      ((state.takeDelegation vk dlg = { state with reverseDlgDepMap := deps } ∧ ¬ state.Admits vk dlg) ∨
        (state.takeDelegation vk dlg = { state with reverseDlgDepMap := deps }.enlist dlg ∧
          state.Admits vk dlg)) := by
  rw [takeDelegation, Admits]
  cases given : dlg.payload.proof with
  | none =>
    refine ⟨state.reverseDlgDepMap, by simp, ?_⟩
    by_cases own : dlg.issuer = vk
    · exact .inr ⟨by simp [own], own⟩
    · exact .inl ⟨by simp [own], own⟩
  | some proof =>
    refine ⟨insertAt state.reverseDlgDepMap proof.signature dlg.signature, fun above sig => ?_, ?_⟩
    · unfold Under insertAt
      rw [getD_insert_iff]
      by_cases here : above = proof.signature
      · subst here
        simp [or_comm, eq_comm (a := sig)]
      · simp [here]
    · simp only
      split
      · rename_i turnedDown
        refine .inl ⟨rfl, ?_⟩
        rw [Bool.and_eq_true, Bool.not_eq_true'] at turnedDown
        rintro (alive | alternative)
        · exact Bool.noConfusion (alive.symm.trans turnedDown.1)
        · exact Bool.noConfusion (alternative.symm.trans turnedDown.2)
      · rename_i admitted
        refine .inr ⟨rfl, ?_⟩
        rw [Bool.and_eq_true, not_and_or, Bool.not_eq_true, Bool.not_eq_true, Bool.not_eq_false'] at admitted
        exact admitted

theorem playKeyed_enlist (state : Rebuild T) (keyed : PlayKeyed state.dlgsInPlay)
    (dlg : SignedDelegation T) : PlayKeyed (state.enlist dlg).dlgsInPlay := by
  rw [enlist]
  split
  · exact keyed
  · intro sig other found
    simp only at found
    rw [getElem?_insert_iff] at found
    split at found
    · rename_i here
      rw [← Option.some.inj found, here]
    · exact keyed sig other found

theorem playKeyed_run (vk : Identifier) (order : HashOrder T) (ops : List (MembershipOperation T)) :
    PlayKeyed (run vk order ops).dlgsInPlay := by
  refine run_induction (motive := fun _ state => PlayKeyed state.dlgsInPlay) ?_ ?_ ops
  · intro sig dlg found
    simp [start] at found
  · intro ops op keyed
    cases op with
    | delegation dlg =>
      obtain ⟨deps, -, ⟨same, -⟩ | ⟨same, -⟩⟩ := takeDelegation_cases vk (run vk order ops) dlg
      · rw [take, same]
        exact keyed
      · rw [take, same]
        exact playKeyed_enlist { run vk order ops with reverseDlgDepMap := deps } keyed dlg
    | revocation rev =>
      rw [take, takeRevocation]
      split
      · have spec : CascadeSpec _ _ ((run vk order ops).cascade order rev.payload.revoke.signature) :=
          cascade_spec keyed
        intro sig dlg found
        by_cases falls : Falls (run vk order ops).reverseDlgDepMap (run vk order ops).dlgsInPlay
            rev.payload.revoke.signature sig
        · exact absurd (mem_iff_exists.mpr ⟨dlg, found⟩) (spec.gone sig falls)
        · exact keyed sig dlg ((spec.stays sig falls) ▸ found)
      · exact keyed

end Rebuild

end KeyhiveEval.Core
