/-
**`ciphertext/memory.rs`: the ciphertexts that have not been decrypted yet.**

A `MemoryCiphertextStore` keeps ciphertexts under their digests, with two indices: the digests of a content, and the
contents of an update of the group key.

* `insert`, `remove`, `removeAll`, `getByContentRef`, `getByPcsUpdate` — the methods. `removeAll` leaves the second
  index alone, and `remove` takes a content out of it although other ciphertexts may have the same content and update.
* `Consistent` — the indices say what is stored. `Clean` — the calls that keep it so.
* `right_iff_clean` — in a whole run.
-/

import KeyhiveEval.Beekem.Cgka
import Mathlib.Data.Finset.Basic
import Mathlib.Data.Finset.Image

set_option linter.unusedSectionVars false

namespace KeyhiveEval.Core

open Beekem

/-! ### Indices -/

abbrev Index (K V : Type) := K → Option (Finset V)

namespace Index

variable {K V : Type} [DecidableEq K] [DecidableEq V]

def Has (index : Index K V) (key : K) (value : V) : Prop := ∃ values, index key = some values ∧ value ∈ values

def NoneEmpty (index : Index K V) : Prop := ∀ key, index key ≠ some ∅

/-- `entry(key).or_default().insert(value)`. -/
def insert (index : Index K V) (key : K) (value : V) : Index K V :=
  Function.update index key (some (Insert.insert value ((index key).getD ∅)))

/-- `entry(key).and_modify(|values| values.remove(value))`. -/
def removeValue (index : Index K V) (key : K) (value : V) : Index K V :=
  Function.update index key ((index key).map fun values => values.erase value)

/-- `remove(key)`. -/
def remove (index : Index K V) (key : K) : Index K V := Function.update index key none

def dropEmpty (index : Index K V) (key : K) : Index K V := if index key = some ∅ then index.remove key else index

section

variable {index : Index K V} {key other : K} {value element : V}

theorem has_insert : (index.insert key value).Has other element ↔
    index.Has other element ∨ other = key ∧ element = value := by
  unfold Has insert
  by_cases same : other = key
  · subst same
    rw [Function.update_self]
    cases index other <;> simp [or_comm]
  · simp [same]

theorem has_removeValue :
    (index.removeValue key value).Has other element ↔ index.Has other element ∧ ¬ (other = key ∧ element = value) := by
  unfold Has removeValue
  by_cases same : other = key
  · subst same
    rw [Function.update_self]
    cases index other <;> simp [and_comm]
  · simp [same]

theorem has_remove : (index.remove key).Has other element ↔ index.Has other element ∧ other ≠ key := by
  unfold Has remove
  by_cases same : other = key
  · simp [same]
  · simp [same]

theorem has_dropEmpty : (index.dropEmpty key).Has other element ↔ index.Has other element := by
  unfold dropEmpty
  split
  · rename_i isEmpty
    rw [has_remove, and_iff_left_iff_imp]
    rintro ⟨values, found, here⟩ rfl
    rw [isEmpty] at found
    obtain rfl := Option.some.inj found
    simp at here
  · exact Iff.rfl

theorem noneEmpty_insert (noneEmpty : index.NoneEmpty) : (index.insert key value).NoneEmpty := by
  intro other
  unfold insert
  by_cases same : other = key
  · subst same
    simp
  · rw [Function.update_of_ne same]
    exact noneEmpty other

/-- A set that has become empty is dropped with its key. -/
theorem noneEmpty_dropEmpty_removeValue (noneEmpty : index.NoneEmpty) :
    ((index.removeValue key value).dropEmpty key).NoneEmpty := by
  intro other
  unfold dropEmpty
  by_cases same : other = key
  · subst same
    split
    · simp [remove]
    · assumption
  · have old : index.removeValue key value other = index other := Function.update_of_ne same _ _
    split
    · rw [remove, Function.update_of_ne same, old]
      exact noneEmpty other
    · rw [old]
      exact noneEmpty other

end

end Index

/-! ### The store -/

section Store

variable {Cr : Type} [DecidableEq Cr]

abbrev CiphertextDigest (Cr : Type) := Digest (EncryptedContent Cr)

structure MemoryCiphertextStore (Cr : Type) where
  opsToRefs : Index OpDigest Cr
  refsToDigests : Index Cr (CiphertextDigest Cr)
  /-- The ciphertexts, each with the number of its bytes. -/
  store : CiphertextDigest Cr → Option (Nat × EncryptedContent Cr)

structure SetOrder (α : Type) where
  walk : Finset α → List α
  mem_walk : ∀ set a, a ∈ walk set ↔ a ∈ set

namespace MemoryCiphertextStore

def new : MemoryCiphertextStore Cr := ⟨fun _ => none, fun _ => none, fun _ => none⟩

/-- The largest of some ciphertexts; of several the last. -/
def largest : List (Nat × EncryptedContent Cr) → Option (EncryptedContent Cr)
  | [] => none
  | first :: rest => some (rest.foldl (fun best entry => if entry.1 < best.1 then best else entry) first).2

/-- A ciphertext of a content. There is none if one of the digests is not stored. -/
def getByContentRef (order : SetOrder (CiphertextDigest Cr)) (ciphertexts : MemoryCiphertextStore Cr) (contentRef : Cr) :
    Option (EncryptedContent Cr) := do
  let digests ← ciphertexts.refsToDigests contentRef
  let found ← (order.walk digests).mapM ciphertexts.store
  largest found

/-- The ciphertexts of the contents of an update. -/
def getByPcsUpdate (refs : SetOrder Cr) (order : SetOrder (CiphertextDigest Cr)) (ciphertexts : MemoryCiphertextStore Cr)
    (pcsUpdateOp : OpDigest) : List (EncryptedContent Cr) :=
  ((ciphertexts.opsToRefs pcsUpdateOp).elim [] refs.walk).flatMap fun contentRef =>
    ((ciphertexts.refsToDigests contentRef).elim [] order.walk).filterMap fun digest =>
      (ciphertexts.store digest).map Prod.snd

variable (hash : EncryptedContent Cr → CiphertextDigest Cr)

/-- Store a ciphertext. The indices are left alone if the digest was there already. -/
def insert (ciphertexts : MemoryCiphertextStore Cr) (encrypted : EncryptedContent Cr) : MemoryCiphertextStore Cr :=
  let digest := hash encrypted
  let stored := { ciphertexts with
    store := Function.update ciphertexts.store digest (some (encrypted.ciphertext.length, encrypted)) }
  if (ciphertexts.store digest).isSome then stored
  else
    { stored with
      opsToRefs := ciphertexts.opsToRefs.insert encrypted.pcsUpdateOpHash encrypted.contentRef
      refsToDigests := ciphertexts.refsToDigests.insert encrypted.contentRef digest }

def remove (ciphertexts : MemoryCiphertextStore Cr) (digest : CiphertextDigest Cr) :
    Option (EncryptedContent Cr) × MemoryCiphertextStore Cr :=
  match ciphertexts.store digest with
  | none => (none, ciphertexts)
  | some (_, encrypted) =>
    let taken := { ciphertexts with
      store := Function.update ciphertexts.store digest none
      opsToRefs := ciphertexts.opsToRefs.removeValue encrypted.pcsUpdateOpHash encrypted.contentRef }
    -- the early return in the middle of the clean-up
    if taken.opsToRefs encrypted.pcsUpdateOpHash = none then (none, taken)
    else
      (some encrypted, { taken with
        opsToRefs := taken.opsToRefs.dropEmpty encrypted.pcsUpdateOpHash
        refsToDigests :=
          (ciphertexts.refsToDigests.removeValue encrypted.contentRef digest).dropEmpty encrypted.contentRef })

/-- Take all ciphertexts of a content out. Returns whether there was something. -/
def removeAll (ciphertexts : MemoryCiphertextStore Cr) (contentRef : Cr) : Bool × MemoryCiphertextStore Cr :=
  match ciphertexts.refsToDigests contentRef with
  | none => (false, ciphertexts)
  | some digests =>
    (true, { ciphertexts with
      refsToDigests := ciphertexts.refsToDigests.remove contentRef
      store := fun digest => if digest ∈ digests then none else ciphertexts.store digest })

def markDecrypted (ciphertexts : MemoryCiphertextStore Cr) (contentRef : Cr) : MemoryCiphertextStore Cr :=
  (ciphertexts.removeAll contentRef).2

/-! ### Calls -/

/-- A call of one of the methods that change the store. -/
inductive Call (Cr : Type)
  | insert (encrypted : EncryptedContent Cr)
  | remove (digest : CiphertextDigest Cr)
  | removeAll (contentRef : Cr)
  | markDecrypted (contentRef : Cr)

def apply (ciphertexts : MemoryCiphertextStore Cr) : Call Cr → MemoryCiphertextStore Cr
  | .insert encrypted => ciphertexts.insert hash encrypted
  | .remove digest => (ciphertexts.remove digest).2
  | .removeAll contentRef => (ciphertexts.removeAll contentRef).2
  | .markDecrypted contentRef => ciphertexts.markDecrypted contentRef

/-- A ciphertext is stored under a digest. -/
def Stores (ciphertexts : MemoryCiphertextStore Cr) (digest : CiphertextDigest Cr) (encrypted : EncryptedContent Cr) :
    Prop :=
  ∃ size, ciphertexts.store digest = some (size, encrypted)

/-- **The indices say what is stored.** -/
structure Consistent (ciphertexts : MemoryCiphertextStore Cr) : Prop where
  refs : ∀ contentRef digest, ciphertexts.refsToDigests.Has contentRef digest ↔
    ∃ encrypted, ciphertexts.Stores digest encrypted ∧ encrypted.contentRef = contentRef
  ops : ∀ op contentRef, ciphertexts.opsToRefs.Has op contentRef ↔
    ∃ digest encrypted, ciphertexts.Stores digest encrypted ∧ encrypted.contentRef = contentRef ∧
      encrypted.pcsUpdateOpHash = op
  refsNoneEmpty : ciphertexts.refsToDigests.NoneEmpty
  opsNoneEmpty : ciphertexts.opsToRefs.NoneEmpty

/-- **The calls that keep the indices in order**: no content is removed as a whole while it is stored, and no
ciphertext while another one with the same content and the same update is stored. -/
def Clean (ciphertexts : MemoryCiphertextStore Cr) : Call Cr → Prop
  | .insert _ => True
  | .remove digest => ∀ encrypted other sibling, ciphertexts.Stores digest encrypted → ciphertexts.Stores other sibling →
      sibling.contentRef = encrypted.contentRef → sibling.pcsUpdateOpHash = encrypted.pcsUpdateOpHash → other = digest
  | .removeAll contentRef | .markDecrypted contentRef =>
      ∀ digest encrypted, ciphertexts.Stores digest encrypted → encrypted.contentRef ≠ contentRef

/-- Ciphertexts are stored under their digests, with their sizes. -/
def Keyed (ciphertexts : MemoryCiphertextStore Cr) : Prop :=
  ∀ digest size encrypted, ciphertexts.store digest = some (size, encrypted) →
    hash encrypted = digest ∧ size = encrypted.ciphertext.length

section Step

variable {hash} {ciphertexts : MemoryCiphertextStore Cr} {call : Call Cr}

theorem store_apply {digest : CiphertextDigest Cr} {entry : Nat × EncryptedContent Cr}
    (here : (ciphertexts.apply hash call).store digest = some entry) :
    ciphertexts.store digest = some entry ∨
      ∃ encrypted, call = .insert encrypted ∧ digest = hash encrypted ∧
        entry = (encrypted.ciphertext.length, encrypted) := by
  have all {contentRef : Cr} (here : (ciphertexts.removeAll contentRef).2.store digest = some entry) :
      ciphertexts.store digest = some entry := by
    unfold removeAll at here
    split at here
    · exact here
    · dsimp only at here
      split at here
      · cases here
      · exact here
  cases call with
  | insert encrypted =>
    have isStore : (ciphertexts.apply hash (.insert encrypted)).store
        = Function.update ciphertexts.store (hash encrypted) (some (encrypted.ciphertext.length, encrypted)) := by
      simp only [apply, insert]
      split <;> rfl
    rw [isStore] at here
    by_cases same : digest = hash encrypted
    · subst same
      rw [Function.update_self] at here
      exact .inr ⟨encrypted, rfl, rfl, (Option.some.inj here).symm⟩
    · rw [Function.update_of_ne same] at here
      exact .inl here
  | removeAll contentRef => exact .inl (all here)
  | markDecrypted contentRef => exact .inl (all here)
  | remove removed =>
    refine .inl ?_
    have erased (found : Function.update ciphertexts.store removed none digest = some entry) :
        ciphertexts.store digest = some entry := by
      by_cases same : digest = removed
      · simp [same] at found
      · rwa [Function.update_of_ne same] at found
    simp only [apply, remove] at here
    split at here
    · exact here
    · split at here <;> exact erased here

theorem keyed_apply (keyed : Keyed hash ciphertexts) (call : Call Cr) : Keyed hash (ciphertexts.apply hash call) := by
  intro digest size encrypted here
  rcases store_apply here with old | ⟨new, -, rfl, isNew⟩
  · exact keyed digest size encrypted old
  · obtain ⟨rfl, rfl⟩ := Prod.mk.inj isNew
    exact ⟨rfl, rfl⟩

variable {encrypted : EncryptedContent Cr}

theorem consistent_insert (keyed : Keyed hash ciphertexts) (consistent : ciphertexts.Consistent)
    (noCollision : ∀ stored, ciphertexts.Stores (hash encrypted) stored → stored = encrypted) :
    (ciphertexts.insert hash encrypted).Consistent := by
  unfold insert
  dsimp only
  cases found : ciphertexts.store (hash encrypted) with
  | some entry =>
    -- the same ciphertext is there already
    obtain ⟨size, stored⟩ := entry
    obtain ⟨-, rfl⟩ := keyed _ size stored found
    obtain rfl := noCollision stored ⟨_, found⟩
    rw [← found, Function.update_eq_self, found]
    exact consistent
  | none =>
    rw [if_neg (by simp)]
    have stores (digest : CiphertextDigest Cr) (other : EncryptedContent Cr) :
        (∃ size, Function.update ciphertexts.store (hash encrypted) (some (encrypted.ciphertext.length, encrypted)) digest
          = some (size, other)) ↔ ciphertexts.Stores digest other ∨ digest = hash encrypted ∧ other = encrypted := by
      unfold Stores
      by_cases same : digest = hash encrypted
      · subst same
        simp [found, eq_comm]
      · simp [same]
    refine ⟨fun contentRef digest => Index.has_insert.trans ?_, fun op contentRef => Index.has_insert.trans ?_, ?_, ?_⟩
    · rw [consistent.refs]
      constructor
      · rintro (⟨other, old, isRef⟩ | ⟨rfl, rfl⟩)
        · exact ⟨other, (stores digest other).mpr (.inl old), isRef⟩
        · exact ⟨encrypted, (stores _ _).mpr (.inr ⟨rfl, rfl⟩), rfl⟩
      · rintro ⟨other, here, isRef⟩
        rcases (stores digest other).mp here with old | ⟨rfl, rfl⟩
        · exact .inl ⟨other, old, isRef⟩
        · exact .inr ⟨isRef.symm, rfl⟩
    · rw [consistent.ops]
      constructor
      · rintro (⟨digest, other, old, isRef⟩ | ⟨rfl, rfl⟩)
        · exact ⟨digest, other, (stores digest other).mpr (.inl old), isRef⟩
        · exact ⟨_, encrypted, (stores _ _).mpr (.inr ⟨rfl, rfl⟩), rfl, rfl⟩
      · rintro ⟨digest, other, here, isRef, isOp⟩
        rcases (stores digest other).mp here with old | ⟨rfl, rfl⟩
        · exact .inl ⟨digest, other, old, isRef, isOp⟩
        · exact .inr ⟨isOp.symm, isRef.symm⟩
    · exact Index.noneEmpty_insert consistent.refsNoneEmpty
    · exact Index.noneEmpty_insert consistent.opsNoneEmpty

/-- A removal from consistent indices finds the content under its update, so that it comes to its end. -/
theorem remove_of_stores (consistent : ciphertexts.Consistent) {digest : CiphertextDigest Cr}
    (stored : ciphertexts.Stores digest encrypted) :
    ciphertexts.remove digest = (some encrypted,
      { opsToRefs := (ciphertexts.opsToRefs.removeValue encrypted.pcsUpdateOpHash encrypted.contentRef).dropEmpty
          encrypted.pcsUpdateOpHash
        refsToDigests := (ciphertexts.refsToDigests.removeValue encrypted.contentRef digest).dropEmpty
          encrypted.contentRef
        store := Function.update ciphertexts.store digest none }) := by
  obtain ⟨values, isValues, -⟩ := (consistent.ops _ _).mpr ⟨digest, encrypted, stored, rfl, rfl⟩
  obtain ⟨size, found⟩ := stored
  unfold remove
  simp only [found]
  rw [if_neg]
  simp [Index.removeValue, isValues]

/-- **When a removal keeps the indices in order.** -/
theorem consistent_remove_iff (consistent : ciphertexts.Consistent) (digest : CiphertextDigest Cr) :
    (ciphertexts.remove digest).2.Consistent ↔ ciphertexts.Clean (.remove digest) := by
  by_cases isStored : ∃ encrypted, ciphertexts.Stores digest encrypted
  · obtain ⟨encrypted, stored⟩ := isStored
    have unique (other : EncryptedContent Cr) (here : ciphertexts.Stores digest other) : other = encrypted := by
      obtain ⟨size, found⟩ := stored
      obtain ⟨size', found'⟩ := here
      rw [found] at found'
      cases found'
      rfl
    have stores (other : CiphertextDigest Cr) (sibling : EncryptedContent Cr) :
        (∃ size, Function.update ciphertexts.store digest none other = some (size, sibling)) ↔
          ciphertexts.Stores other sibling ∧ other ≠ digest := by
      unfold Stores
      by_cases same : other = digest <;> simp [same]
    rw [remove_of_stores consistent stored]
    constructor
    · -- a sibling of the removed ciphertext is not listed any more
      intro after encrypted' other sibling stored' here sameRef sameOp
      obtain rfl := unique encrypted' stored'
      by_contra different
      have listed := (after.ops encrypted'.pcsUpdateOpHash encrypted'.contentRef).mpr
        ⟨other, sibling, (stores other sibling).mpr ⟨here, different⟩, sameRef, sameOp⟩
      exact (Index.has_removeValue.mp (Index.has_dropEmpty.mp listed)).2 ⟨rfl, rfl⟩
    · intro clean
      refine ⟨fun contentRef other => ?_, fun op contentRef => ?_, ?_, ?_⟩
      · refine (Index.has_dropEmpty.trans Index.has_removeValue).trans ?_
        rw [consistent.refs]
        constructor
        · rintro ⟨⟨sibling, here, rfl⟩, different⟩
          refine ⟨sibling, (stores other sibling).mpr ⟨here, ?_⟩, rfl⟩
          rintro rfl
          exact different ⟨by rw [unique sibling here], rfl⟩
        · rintro ⟨sibling, here, isRef⟩
          obtain ⟨old, different⟩ := (stores other sibling).mp here
          exact ⟨⟨sibling, old, isRef⟩, fun same => different same.2⟩
      · refine (Index.has_dropEmpty.trans Index.has_removeValue).trans ?_
        rw [consistent.ops]
        constructor
        · rintro ⟨⟨other, sibling, here, rfl, rfl⟩, different⟩
          refine ⟨other, sibling, (stores other sibling).mpr ⟨here, ?_⟩, rfl, rfl⟩
          rintro rfl
          exact different ⟨by rw [unique sibling here], by rw [unique sibling here]⟩
        · rintro ⟨other, sibling, here, rfl, rfl⟩
          obtain ⟨old, different⟩ := (stores other sibling).mp here
          exact ⟨⟨other, sibling, old, rfl, rfl⟩, fun same =>
            different (clean encrypted other sibling stored old same.2 same.1)⟩
      · exact Index.noneEmpty_dropEmpty_removeValue consistent.refsNoneEmpty
      · exact Index.noneEmpty_dropEmpty_removeValue consistent.opsNoneEmpty
  · have unchanged : (ciphertexts.remove digest).2 = ciphertexts := by
      unfold remove
      cases found : ciphertexts.store digest with
      | none => rfl
      | some entry => exact absurd ⟨entry.2, entry.1, found⟩ isStored
    rw [unchanged]
    exact iff_of_true consistent fun encrypted _ _ stored => absurd ⟨encrypted, stored⟩ isStored

/-- **When the removal of a content keeps the indices in order**: only if there is nothing to remove. -/
theorem consistent_removeAll_iff (consistent : ciphertexts.Consistent) (contentRef : Cr) :
    (ciphertexts.removeAll contentRef).2.Consistent ↔ ciphertexts.Clean (.removeAll contentRef) := by
  unfold removeAll
  cases found : ciphertexts.refsToDigests contentRef with
  | none =>
    refine iff_of_true consistent ?_
    rintro digest encrypted stored rfl
    obtain ⟨digests, found', -⟩ := (consistent.refs _ _).mpr ⟨encrypted, stored, rfl⟩
    rw [found] at found'
    cases found'
  | some digests =>
    have nonempty : digests ≠ ∅ := fun isEmpty => consistent.refsNoneEmpty contentRef (by rw [found, isEmpty])
    obtain ⟨digest, here⟩ := Finset.nonempty_iff_ne_empty.mpr nonempty
    obtain ⟨encrypted, stored, isRef⟩ := (consistent.refs contentRef digest).mp ⟨digests, found, here⟩
    refine iff_of_false (fun after => ?_) fun clean => clean digest encrypted stored isRef
    -- the content is still listed under its update, and no ciphertext of it is left
    have listed := (consistent.ops _ _).mpr ⟨digest, encrypted, stored, isRef, rfl⟩
    obtain ⟨other, sibling, ⟨size, left⟩, isRef', -⟩ := (after.ops _ _).mp listed
    dsimp only at left
    split at left
    · cases left
    · rename_i notHere
      obtain ⟨digests', found', here'⟩ := (consistent.refs _ _).mpr ⟨sibling, ⟨size, left⟩, isRef'⟩
      rw [found] at found'
      cases found'
      exact notHere here'

theorem consistent_apply_iff (keyed : Keyed hash ciphertexts) (consistent : ciphertexts.Consistent)
    (noCollision : ∀ encrypted stored, call = .insert encrypted → ciphertexts.Stores (hash encrypted) stored →
      stored = encrypted) :
    (ciphertexts.apply hash call).Consistent ↔ ciphertexts.Clean call := by
  cases call with
  | insert encrypted =>
    exact iff_of_true (consistent_insert keyed consistent fun stored => noCollision encrypted stored rfl) trivial
  | remove digest => exact consistent_remove_iff consistent digest
  | removeAll contentRef => exact consistent_removeAll_iff consistent contentRef
  | markDecrypted contentRef => exact consistent_removeAll_iff consistent contentRef

/-! ### What the methods return -/

/-- Consistent indices, a removal that returns what it removes, and a content that is found if it is there. -/
structure Right (order : SetOrder (CiphertextDigest Cr)) (ciphertexts : MemoryCiphertextStore Cr) : Prop where
  consistent : ciphertexts.Consistent
  removed : ∀ digest encrypted, (ciphertexts.remove digest).1 = some encrypted ↔ ciphertexts.Stores digest encrypted
  found : ∀ digest encrypted, ciphertexts.Stores digest encrypted →
    (ciphertexts.getByContentRef order encrypted.contentRef).isSome

theorem removed_iff (consistent : ciphertexts.Consistent) (digest : CiphertextDigest Cr) (encrypted : EncryptedContent Cr) :
    (ciphertexts.remove digest).1 = some encrypted ↔ ciphertexts.Stores digest encrypted := by
  cases found : ciphertexts.store digest with
  | none => simp [remove, Stores, found]
  | some entry =>
    obtain ⟨size, stored⟩ := entry
    rw [remove_of_stores consistent ⟨size, found⟩]
    simp [Stores, found]

theorem mapM_eq_some {α β : Type} {f : α → Option β} {list : List α} (all : ∀ a ∈ list, (f a).isSome) :
    ∃ values, list.mapM f = some values ∧ values.length = list.length := by
  induction list with
  | nil => exact ⟨[], rfl, rfl⟩
  | cons first rest ih =>
    obtain ⟨value, isValue⟩ := Option.isSome_iff_exists.mp (all first List.mem_cons_self)
    obtain ⟨values, isValues, sameLength⟩ := ih fun a here => all a (List.mem_cons_of_mem _ here)
    exact ⟨value :: values, by simp [isValue, isValues], by simp [sameLength]⟩

theorem isSome_getByContentRef (order : SetOrder (CiphertextDigest Cr)) (consistent : ciphertexts.Consistent)
    {digest : CiphertextDigest Cr} (stored : ciphertexts.Stores digest encrypted) :
    (ciphertexts.getByContentRef order encrypted.contentRef).isSome := by
  obtain ⟨digests, isDigests, here⟩ := (consistent.refs _ _).mpr ⟨encrypted, stored, rfl⟩
  have allStored : ∀ other ∈ order.walk digests, (ciphertexts.store other).isSome := by
    intro other walked
    obtain ⟨_, ⟨_, found⟩, -⟩ :=
      (consistent.refs _ _).mp ⟨digests, isDigests, (order.mem_walk digests other).mp walked⟩
    simp [found]
  have nonempty : order.walk digests ≠ [] := List.ne_nil_of_mem ((order.mem_walk digests digest).mpr here)
  unfold getByContentRef
  rw [isDigests]
  obtain ⟨entries, isEntries, sameLength⟩ := mapM_eq_some allStored
  show (((order.walk digests).mapM ciphertexts.store).bind largest).isSome
  rw [isEntries, Option.bind_some]
  cases entries with
  | nil => exact absurd (List.length_eq_zero_iff.mp sameLength.symm) nonempty
  | cons first rest => rfl

theorem Consistent.right (order : SetOrder (CiphertextDigest Cr)) (consistent : ciphertexts.Consistent) :
    ciphertexts.Right order :=
  ⟨consistent, removed_iff consistent, fun _ _ => isSome_getByContentRef order consistent⟩

end Step

/-! ### A run of calls -/

def run (calls : List (Call Cr)) : MemoryCiphertextStore Cr := calls.foldl (apply hash) new

section Run

variable {hash}

theorem run_concat (calls : List (Call Cr)) (call : Call Cr) :
    run hash (calls ++ [call]) = (run hash calls).apply hash call := by
  simp [run]

theorem keyed_run (calls : List (Call Cr)) : Keyed hash (run hash calls) := by
  induction calls using List.reverseRecOn with
  | nil => intro _ _ _ here; cases here
  | append_singleton calls call ih =>
    rw [run_concat]
    exact keyed_apply ih call

theorem inserted_of_stores {calls : List (Call Cr)} {digest : CiphertextDigest Cr} {encrypted : EncryptedContent Cr}
    (stored : (run hash calls).Stores digest encrypted) : .insert encrypted ∈ calls := by
  induction calls using List.reverseRecOn with
  | nil =>
    obtain ⟨_, here⟩ := stored
    cases here
  | append_singleton calls call ih =>
    rw [run_concat] at stored
    obtain ⟨size, here⟩ := stored
    rcases store_apply here with old | ⟨new, rfl, -, isNew⟩
    · exact List.mem_append_left _ (ih ⟨size, old⟩)
    · obtain ⟨-, rfl⟩ := Prod.mk.inj isNew
      exact List.mem_append_right _ List.mem_cons_self

end Run

/-- **The indices of a ciphertext store.** In every run of calls the indices say what is stored, every removal returns
the ciphertext exactly if it was stored, and a stored content is found, in all states that are reached, exactly if all
calls are `Clean`. -/
theorem right_iff_clean (order : SetOrder (CiphertextDigest Cr)) (calls : List (Call Cr))
    (noCollision : ∀ first second, .insert first ∈ calls → .insert second ∈ calls → hash first = hash second →
      first = second) :
    (∀ before, before <+: calls → (run hash before).Right order) ↔
      ∀ before call, before ++ [call] <+: calls → (run hash before).Clean call := by
  have step {before : List (Call Cr)} {call : Call Cr} (here : before ++ [call] <+: calls)
      (consistent : (run hash before).Consistent) :
      (run hash (before ++ [call])).Consistent ↔ (run hash before).Clean call := by
    rw [run_concat]
    refine consistent_apply_iff (keyed_run before) consistent fun encrypted stored isInsert found => ?_
    obtain ⟨size, found'⟩ := found
    have sameHash : hash stored = hash encrypted := (keyed_run before _ size stored found').1
    refine noCollision stored encrypted ?_ ?_ sameHash
    · exact here.subset (List.mem_append_left _ (inserted_of_stores ⟨size, found'⟩))
    · exact here.subset (List.mem_append_right _ (by simp [isInsert]))
  constructor
  · intro right before call here
    exact (step here (right before ((List.prefix_append _ _).trans here)).consistent).mp (right _ here).consistent
  · intro clean before here
    refine Consistent.right order ?_
    induction before using List.reverseRecOn with
    | nil => exact ⟨by simp [run, new, Index.Has, Stores], by simp [run, new, Index.Has, Stores],
        by simp [run, new, Index.NoneEmpty], by simp [run, new, Index.NoneEmpty]⟩
    | append_singleton before call ih =>
      exact (step here (ih ((List.prefix_append _ _).trans here))).mpr (clean before call here)

namespace Sample

/-- A ciphertext that is one byte, of a content and an update. -/
def ciphertext (byte : UInt8) (contentRef op : Nat) : EncryptedContent Nat where
  nonce := ⟨0⟩
  ciphertext := [byte]
  pcsKeyHash := ⟨0⟩
  pcsUpdateOpHash := ⟨BitVec.ofNat 256 op⟩
  contentRef
  predRefs := ⟨0⟩

def digest (encrypted : EncryptedContent Nat) : CiphertextDigest Nat :=
  ⟨BitVec.ofNat 256 ((encrypted.ciphertext.headD 0).toNat)⟩

/-- Two ciphertexts of content 7 under update 3 are stored, and the first is removed. -/
def oneLeft : MemoryCiphertextStore Nat :=
  run digest [.insert (ciphertext 1 7 3), .insert (ciphertext 2 7 3), .remove ⟨1⟩]

/-- **A stored ciphertext is removed and not returned, and its digest stays listed.** -/
theorem removed_ciphertext_is_not_returned :
    oneLeft.Stores ⟨2⟩ (ciphertext 2 7 3) ∧ (oneLeft.remove ⟨2⟩).1 = none ∧
      (oneLeft.remove ⟨2⟩).2.store ⟨2⟩ = none ∧ (oneLeft.remove ⟨2⟩).2.refsToDigests.Has 7 ⟨2⟩ :=
  ⟨⟨1, rfl⟩, Option.isNone_iff_eq_none.mp (by decide +kernel), Option.isNone_iff_eq_none.mp (by decide +kernel),
    {⟨2⟩}, by decide +kernel, by decide +kernel⟩

/-- In the order in which a list happens to have the elements of a set. -/
noncomputable def anyOrder : SetOrder (CiphertextDigest Nat) := ⟨Finset.toList, fun _ _ => Finset.mem_toList⟩

def calls : List (Call Nat) := [.insert (ciphertext 1 7 3), .insert (ciphertext 2 8 3), .remove ⟨1⟩]

/-- Ciphertexts of different contents do not get into each other's way. -/
theorem right_after_calls : (run digest calls).Right anyOrder := by
  have inserted (encrypted : EncryptedContent Nat) (here : .insert encrypted ∈ calls) :
      encrypted = ciphertext 1 7 3 ∨ encrypted = ciphertext 2 8 3 := by
    simpa [calls] using here
  refine (right_iff_clean digest anyOrder calls ?_).mpr ?_ calls (List.prefix_refl _)
  · intro first second isFirst isSecond same
    rcases inserted first isFirst with rfl | rfl <;> rcases inserted second isSecond with rfl | rfl
    · rfl
    · exact absurd same (by decide)
    · exact absurd same (by decide)
    · rfl
  · intro before call here
    cases call with
    | insert encrypted => trivial
    | removeAll contentRef => exact absurd (here.subset (List.mem_append_right _ List.mem_cons_self)) (by simp [calls])
    | markDecrypted contentRef => exact absurd (here.subset (List.mem_append_right _ List.mem_cons_self)) (by simp [calls])
    | remove removed =>
      intro encrypted other sibling stored siblingStored sameRef _
      have from' (digest' : CiphertextDigest Nat) (stored : EncryptedContent Nat)
          (isStored : (run digest before).Stores digest' stored) :
          digest stored = digest' ∧ (stored = ciphertext 1 7 3 ∨ stored = ciphertext 2 8 3) := by
        refine ⟨(keyed_run before digest' _ stored isStored.choose_spec).1, inserted stored ?_⟩
        exact here.subset (List.mem_append_left _ (inserted_of_stores isStored))
      obtain ⟨rfl, isFirst⟩ := from' _ _ stored
      obtain ⟨rfl, isSecond⟩ := from' _ _ siblingStored
      rcases isFirst with rfl | rfl <;> rcases isSecond with rfl | rfl
      · rfl
      · exact absurd sameRef (by decide)
      · exact absurd sameRef (by decide)
      · rfl

end Sample

end MemoryCiphertextStore

end Store

end KeyhiveEval.Core
