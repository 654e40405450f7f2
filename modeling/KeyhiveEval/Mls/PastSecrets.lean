/-
**The message secrets of past epochs.**

A group keeps the secrets of some past epochs, so that late messages can be decrypted, in a queue with the latest
epoch at its end. The deletion policy sets how many; a change of the policy resizes the queue.

* `addPastEpochTree`, `resize` — the methods of `MessageSecretsStore`. Both cut the queue at its end, after they have
  rotated what is to go there.
* `Keeps` — what a call should leave: the latest epochs of those that were there, in the order of their addition.
  `keeps_add` shows it for every addition, `keeps_resize_iff` says for which resizes it holds: the rotation is by the
  difference of the maxima, which is the number of epochs to drop only if the queue is full.
* `latest_epochs_iff` — a whole run of calls.
-/

import Mathlib.Data.List.Rotate
import Mathlib.Data.List.DropRight
import Mathlib.Data.List.Perm.Subperm
import Mathlib.Tactic.Ring
import Mathlib.Tactic.Linarith

namespace KeyhiveEval.Mls

variable {Secrets Member : Type}

/-- How many past epochs a group keeps. -/
inductive PastEpochDeletionPolicy
  | maxEpochs (n : Nat)
  | keepAll

/-- `isize::MAX`. -/
def vecDequeMaxCapacity : Nat := 2 ^ 63 - 1

/-- The maximum of a policy, which is at most what a `VecDeque` can hold. -/
def maxEpochs : PastEpochDeletionPolicy → Nat
  | .maxEpochs n => min n vecDequeMaxCapacity
  | .keepAll => vecDequeMaxCapacity

/-- The secrets of an epoch, with the members of the group in it. -/
structure EpochTree (Secrets Member : Type) where
  epoch : Nat
  leaves : List Member
  messageSecrets : Secrets

/-- The secrets of past epochs and of the current one. The latest past epoch is at the end. -/
structure MessageSecretsStore (Secrets Member : Type) where
  maxEpochs : Nat
  pastEpochTrees : List (EpochTree Secrets Member)
  messageSecrets : Secrets

namespace MessageSecretsStore

def newWithSecret (policy : PastEpochDeletionPolicy) (messageSecrets : Secrets) : MessageSecretsStore Secrets Member where
  maxEpochs := Mls.maxEpochs policy
  pastEpochTrees := []
  messageSecrets

/-- Change the maximum. The rotation is by at most the length of the queue, as `rotate_left` demands. -/
def resize (store : MessageSecretsStore Secrets Member) (policy : PastEpochDeletionPolicy) :
    MessageSecretsStore Secrets Member :=
  let maxPastEpochs := Mls.maxEpochs policy
  let oldSize := store.maxEpochs
  if oldSize > maxPastEpochs then
    let numEpochsOut := oldSize - maxPastEpochs
    { store with
      maxEpochs := maxPastEpochs
      pastEpochTrees :=
        (store.pastEpochTrees.rotate (min numEpochsOut store.pastEpochTrees.length)).take maxPastEpochs }
  else { store with maxEpochs := maxPastEpochs }

/-- Add a past epoch, in place of the oldest one if there is no room. -/
def addPastEpochTree (store : MessageSecretsStore Secrets Member) (tree : EpochTree Secrets Member) :
    MessageSecretsStore Secrets Member :=
  if store.maxEpochs = 0 then store
  else
    let pastEpochTrees :=
      if store.pastEpochTrees.length ≥ store.maxEpochs then
        (store.pastEpochTrees.rotate 1).take (store.maxEpochs - 1)
      else store.pastEpochTrees
    { store with pastEpochTrees := pastEpochTrees ++ [tree] }

end MessageSecretsStore

/-! ### Calls -/

inductive Call (Secrets Member : Type)
  | add (tree : EpochTree Secrets Member)
  | resize (policy : PastEpochDeletionPolicy)

namespace Call

variable (store : MessageSecretsStore Secrets Member)

def apply : Call Secrets Member → MessageSecretsStore Secrets Member
  | .add tree => store.addPastEpochTree tree
  | .resize policy => store.resize policy

/-- **What a call should leave.** -/
def Keeps : Call Secrets Member → Prop
  | .add tree => (store.addPastEpochTree tree).pastEpochTrees = (store.pastEpochTrees ++ [tree]).rtake store.maxEpochs
  | .resize policy => (store.resize policy).pastEpochTrees = store.pastEpochTrees.rtake (maxEpochs policy)

/-- The resizes that cut the queue at the right place: to a larger maximum, to none, of a full queue, or of a queue
so short that the rotation turns it all the way round. -/
def Fits : Call Secrets Member → Prop
  | .add _ => True
  | .resize policy => store.maxEpochs ≤ maxEpochs policy ∨ maxEpochs policy = 0 ∨
      store.pastEpochTrees.length = store.maxEpochs ∨
      store.pastEpochTrees.length ≤ maxEpochs policy ∧
        store.pastEpochTrees.length ≤ store.maxEpochs - maxEpochs policy

end Call

/-! ### One call -/

namespace MessageSecretsStore

variable {store : MessageSecretsStore Secrets Member}

def Bounded (store : MessageSecretsStore Secrets Member) : Prop := store.pastEpochTrees.length ≤ store.maxEpochs

theorem bounded_apply (bounded : store.Bounded) (call : Call Secrets Member) : (call.apply store).Bounded := by
  unfold Bounded at bounded ⊢
  cases call with
  | add tree =>
    simp only [Call.apply, addPastEpochTree]
    split
    · exact bounded
    · split
      · simp only [List.length_append, List.length_take, List.length_rotate, List.length_singleton]
        omega
      · simp only [List.length_append, List.length_singleton]
        omega
  | resize policy =>
    simp only [Call.apply, resize]
    split
    · simp only [List.length_take]
      omega
    · rename_i larger
      exact bounded.trans (not_lt.mp larger)

theorem keeps_add (bounded : store.Bounded) (tree : EpochTree Secrets Member) : (Call.add tree).Keeps store := by
  unfold Bounded at bounded
  show (store.addPastEpochTree tree).pastEpochTrees = _
  unfold addPastEpochTree
  cases isMax : store.maxEpochs with
  | zero =>
    have isEmpty : store.pastEpochTrees = [] := List.length_eq_zero_iff.mp (by omega)
    simp [isEmpty]
  | succ max =>
    rw [List.rtake_concat_succ, if_neg (Nat.succ_ne_zero max)]
    refine congrArg (· ++ [tree]) ?_
    by_cases full : store.pastEpochTrees.length ≥ max + 1
    · -- a full queue is rotated by one, so that its first epoch is the one that is cut off
      have isFull : store.pastEpochTrees.length = max + 1 := by omega
      rw [if_pos full, List.rotate_eq_drop_append_take (by omega), Nat.add_sub_cancel,
        List.take_left' (by simp [isFull]), List.rtake, isFull, Nat.add_sub_cancel_left]
    · rw [if_neg full, List.rtake, show store.pastEpochTrees.length - max = 0 by omega, List.drop_zero]

/-- When the first elements of a rotated list are the last elements of the list. -/
theorem take_rotate_eq_rtake_iff {α : Type} {list : List α} (nodup : list.Nodup) {count size : Nat}
    (positive : 0 < count) (small : count ≤ list.length) (nonzero : 0 < size) :
    (list.rotate count).take size = list.rtake size ↔
      list.length ≤ size ∧ count = list.length ∨ size < list.length ∧ count = list.length - size := by
  unfold List.rtake
  rcases Nat.lt_or_ge size list.length with longer | shorter
  · have inRange : list.length - size < list.length := by omega
    constructor
    · intro same
      -- the two lists begin with the same element
      have heads := congrArg List.head? same
      rw [List.head?_take, if_neg (by omega), List.head?_drop] at heads
      rcases Nat.lt_or_ge count list.length with less | all
      · rw [List.head?_rotate less] at heads
        have sameIndex := (List.getElem?_inj less nodup).mp heads
        exact .inr ⟨longer, sameIndex⟩
      · rw [show count = list.length by omega, List.rotate_length, List.head?_eq_getElem?] at heads
        have sameIndex := (List.getElem?_inj (by omega) nodup).mp heads
        omega
    · rintro (⟨shorter, -⟩ | ⟨-, rfl⟩)
      · omega
      · rw [List.rotate_eq_drop_append_take (by omega), List.take_left' (by simp; omega)]
  · rw [show list.length - size = 0 by omega, List.drop_zero, List.take_of_length_le (by simp [shorter]),
      nodup.rotate_eq_self_iff]
    constructor
    · rintro (turned | rfl)
      · refine .inl ⟨shorter, ?_⟩
        by_contra less
        rw [Nat.mod_eq_of_lt (by omega)] at turned
        omega
      · simp at small
        omega
    · rintro (⟨-, rfl⟩ | ⟨longer, -⟩)
      · exact .inl (Nat.mod_self _)
      · omega

theorem keeps_resize_iff (bounded : store.Bounded) (distinct : (store.pastEpochTrees.map EpochTree.epoch).Nodup)
    (policy : PastEpochDeletionPolicy) :
    (Call.resize policy).Keeps store ↔ (Call.resize policy).Fits store := by
  unfold Bounded at bounded
  show (store.resize policy).pastEpochTrees = store.pastEpochTrees.rtake (Mls.maxEpochs policy) ↔ _ ∨ _
  unfold resize
  generalize Mls.maxEpochs policy = new
  by_cases smaller : store.maxEpochs > new
  · rw [if_pos smaller]
    show (store.pastEpochTrees.rotate _).take new = _ ↔ _
    rcases Nat.eq_zero_or_pos new with rfl | nonzero
    · simp
    rcases Nat.eq_zero_or_pos store.pastEpochTrees.length with isEmpty | nonempty
    · rw [List.length_eq_zero_iff.mp isEmpty]
      simp
    · rw [take_rotate_eq_rtake_iff (distinct.of_map _) (by omega) (by omega) nonzero]
      omega
  · rw [if_neg smaller]
    refine iff_of_true ?_ (.inl (by omega))
    rw [List.rtake, show store.pastEpochTrees.length - new = 0 by omega, List.drop_zero]

/-! ### A run of calls -/

def run (store : MessageSecretsStore Secrets Member) (calls : List (Call Secrets Member)) :
    MessageSecretsStore Secrets Member :=
  calls.foldl (fun store call => call.apply store) store

def epochs (calls : List (Call Secrets Member)) : List Nat :=
  calls.flatMap fun
    | .add tree => [tree.epoch]
    | .resize _ => []

theorem epochs_append (calls later : List (Call Secrets Member)) :
    epochs (calls ++ later) = epochs calls ++ epochs later :=
  List.flatMap_append

theorem run_concat (store : MessageSecretsStore Secrets Member) (calls : List (Call Secrets Member))
    (call : Call Secrets Member) : run store (calls ++ [call]) = call.apply (run store calls) := by
  simp [run]

theorem bounded_run (bounded : store.Bounded) (calls : List (Call Secrets Member)) : (run store calls).Bounded := by
  induction calls using List.reverseRecOn with
  | nil => exact bounded
  | append_singleton calls call ih =>
    rw [run_concat]
    exact bounded_apply ih call

/-- A call keeps epochs that were there, and adds its own at the end. -/
theorem apply_subperm (call : Call Secrets Member) :
    ((call.apply store).pastEpochTrees.map EpochTree.epoch).Subperm
      (store.pastEpochTrees.map EpochTree.epoch ++ epochs [call]) := by
  cases call with
  | add tree =>
    simp only [Call.apply, addPastEpochTree, epochs, List.flatMap_cons, List.flatMap_nil, List.append_nil]
    split
    · exact (List.sublist_append_left _ _).subperm
    · rw [List.map_append, List.map_singleton]
      refine (List.subperm_append_right _).mpr ?_
      split
      · refine ((List.take_sublist _ _).map _).subperm.trans ?_
        exact ((List.rotate_perm _ _).map _).subperm
      · exact List.Subperm.refl _
  | resize policy =>
    simp only [Call.apply, resize, epochs, List.flatMap_cons, List.flatMap_nil, List.append_nil]
    split
    · refine ((List.take_sublist _ _).map _).subperm.trans ?_
      exact ((List.rotate_perm _ _).map _).subperm
    · exact List.Subperm.refl _

theorem run_subperm (isEmpty : store.pastEpochTrees = []) (calls : List (Call Secrets Member)) :
    ((run store calls).pastEpochTrees.map EpochTree.epoch).Subperm (epochs calls) := by
  induction calls using List.reverseRecOn with
  | nil => simp [run, isEmpty]
  | append_singleton calls call ih =>
    rw [run_concat]
    rw [epochs_append]
    exact (apply_subperm call).trans ((List.subperm_append_right _).mpr ih)

/-- **The secrets that a group keeps.** In every run of additions with increasing epochs and of resizes there are never
more epochs than the maximum, and a call leaves the latest of the epochs that were there, in the order of their
addition, exactly if it `Fits`. -/
theorem latest_epochs_iff (policy : PastEpochDeletionPolicy) (secrets : Secrets) (calls : List (Call Secrets Member))
    (increasing : (epochs calls).Pairwise (· < ·)) :
    (∀ before, before <+: calls → (run (newWithSecret policy secrets) before).Bounded) ∧
    ∀ before call, before ++ [call] <+: calls →
      (call.Keeps (run (newWithSecret policy secrets) before) ↔ call.Fits (run (newWithSecret policy secrets) before)) := by
  have empty : (newWithSecret policy secrets : MessageSecretsStore Secrets Member).Bounded := Nat.zero_le _
  refine ⟨fun before _ => bounded_run empty before, fun before call here => ?_⟩
  have bounded := bounded_run empty before
  cases call with
  | add tree => exact iff_of_true (keeps_add bounded tree) trivial
  | resize policy' =>
    refine keeps_resize_iff bounded ?_ policy'
    have nodup : (epochs before).Nodup := by
      obtain ⟨after, rfl⟩ := here
      rw [List.append_assoc, epochs_append] at increasing
      exact (List.pairwise_append.mp increasing).1.imp Nat.ne_of_lt
    obtain ⟨kept, perm, sublist⟩ := run_subperm (show (newWithSecret policy secrets).pastEpochTrees = [] from rfl) before
    exact perm.nodup_iff.mp (nodup.sublist sublist)

namespace Sample

def epoch (n : Nat) : Call Unit Unit := .add ⟨n, [], ()⟩

def held (policy : PastEpochDeletionPolicy) (calls : List (Call Unit Unit)) : List Nat :=
  (run (newWithSecret policy ()) calls).pastEpochTrees.map EpochTree.epoch

/-- **A store for ten epochs that has three of them and is made smaller does not keep the latest**, but the two
oldest. -/
theorem resize_keeps_oldest :
    ¬ (Call.resize (.maxEpochs 2)).Keeps (run (newWithSecret (.maxEpochs 10) ()) [epoch 1, epoch 2, epoch 3]) ∧
      held (.maxEpochs 10) [epoch 1, epoch 2, epoch 3, .resize (.maxEpochs 2)] = [1, 2] :=
  ⟨fun keeps => absurd (congrArg (List.map EpochTree.epoch) keeps) (by decide), by decide⟩

/-- A full store keeps the latest epoch. -/
theorem full_store_keeps_latest :
    (Call.resize (.maxEpochs 1)).Keeps (run (newWithSecret (.maxEpochs 2) ()) [epoch 1, epoch 2]) := by
  obtain ⟨-, keeps⟩ := latest_epochs_iff (.maxEpochs 2) () [epoch 1, epoch 2, .resize (.maxEpochs 1)] (by decide)
  exact (keeps [epoch 1, epoch 2] (.resize (.maxEpochs 1)) (List.prefix_refl _)).mpr (.inr (.inr (.inl rfl)))

end Sample

end MessageSecretsStore

end KeyhiveEval.Mls
