/-
**`individual/op.rs`: the order of the operations on prekeys.**

An individual publishes prekeys. An operation adds one, or rotates one, that is, retires it for a new one. Before they are
sent, the operations are sorted: the additions are put on a stack, and whenever an operation is popped the rotations of
the key that it introduces are pushed.

* `CaMap` — operations under their digests. The map is a hash table; `KeyOpOrder` says in which order it is walked.
* `KeyOp.Topsorts` — the sort ends with a list. Nothing records what was popped, so it is `Unfolding.Unfolds`.
* `KeyOp.Forest` — the key that a rotation retires is introduced once, and there is a way back to an addition.
* **`KeyOp.linearises_iff_forest`** — the sort ends, lists every operation once and each rotation after the operation
  that has introduced its old key, exactly for the forests.
-/

import KeyhiveEval.Core.Delegation
import KeyhiveEval.Lib.OrderedSets
import KeyhiveEval.Lib.Unfolding

namespace KeyhiveEval.Core

open Std Beekem OrderedSets Unfolding

/-! ### Operations -/

structure Signed (P : Type) where
  payload : P
  issuer : Identifier
  signature : Signature
deriving DecidableEq

structure AddKeyOp where
  shareKey : ShareKey
deriving DecidableEq

structure RotateKeyOp where
  old : ShareKey
  new : ShareKey
deriving DecidableEq

inductive KeyOp
  | add (op : Signed AddKeyOp)
  | rotate (op : Signed RotateKeyOp)
deriving DecidableEq

inductive KeyOpTag

abbrev KeyOpDigest := Digest KeyOpTag

namespace KeyOp

def newKey : KeyOp → ShareKey
  | .add op => op.payload.shareKey
  | .rotate op => op.payload.new

def oldKey : KeyOp → Option ShareKey
  | .add _ => none
  | .rotate op => some op.payload.old

def issuer : KeyOp → Identifier
  | .add op => op.issuer
  | .rotate op => op.issuer

def isAdd : KeyOp → Bool
  | .add _ => true
  | .rotate _ => false

theorem isAdd_iff {op : KeyOp} : op.isAdd = true ↔ op.oldKey = none := by
  cases op <;> simp [isAdd, oldKey]

end KeyOp

/-! ### Content-addressed maps -/

structure CaMap (hash : KeyOp → KeyOpDigest) where
  entries : ExtTreeMap KeyOpDigest KeyOp
  keyed : ∀ {digest : KeyOpDigest} {op : KeyOp}, entries[digest]? = some op → digest = hash op

/-- In which order the map is walked. -/
structure KeyOpOrder where
  list : List KeyOp → List KeyOp
  list_perm : ∀ ops, (list ops).Perm ops

def KeyOpOrder.sorted : KeyOpOrder := ⟨id, List.Perm.refl⟩

namespace CaMap

variable {hash : KeyOp → KeyOpDigest}

def empty : CaMap hash := ⟨∅, by simp⟩

def insert (map : CaMap hash) (op : KeyOp) : CaMap hash where
  entries := map.entries.insert (hash op) op
  keyed found := by
    rw [getElem?_insert_iff] at found
    split at found
    · rename_i here
      rw [here, Option.some.inj found]
    · exact map.keyed found

def values (order : KeyOpOrder) (map : CaMap hash) : List KeyOp := order.list (map.entries.toList.map Prod.snd)

def Holds (map : CaMap hash) (op : KeyOp) : Prop := map.entries[hash op]? = some op

theorem mem_values {order : KeyOpOrder} {map : CaMap hash} {op : KeyOp} : op ∈ map.values order ↔ map.Holds op := by
  rw [values, (order.list_perm _).mem_iff, List.mem_map]
  constructor
  · rintro ⟨entry, listed, rfl⟩
    have found := ExtTreeMap.mem_toList_iff_getElem?_eq_some.mp listed
    rw [Holds, ← map.keyed found]
    exact found
  · intro holds
    exact ⟨(hash op, op), ExtTreeMap.mem_toList_iff_getElem?_eq_some.mpr holds, rfl⟩

theorem nodup_values (order : KeyOpOrder) (map : CaMap hash) : (map.values order).Nodup := by
  rw [values, (order.list_perm _).nodup_iff]
  have digests : map.entries.toList.map Prod.fst = (map.entries.toList.map Prod.snd).map hash := by
    rw [List.map_map]
    refine List.map_congr_left fun entry listed => ?_
    exact map.keyed (ExtTreeMap.mem_toList_iff_getElem?_eq_some.mp listed)
  have distinct := distinct_toList map.entries
  rw [digests] at distinct
  exact distinct.of_map

end CaMap

/-! ### The sort -/

namespace KeyOp

/-- The rotations of a key, in the order in which they were met. -/
def rotationsOf (ops : List KeyOp) (key : ShareKey) : List KeyOp := ops.filter fun op => op.oldKey = some key

/-- The additions, which the stack starts with: the last one is popped first. -/
def additions (ops : List KeyOp) : List KeyOp := (ops.filter isAdd).reverse

/-- The loop of the sort with some fuel, for operations in the order in which the map is walked. -/
def topsort (fuel : Nat) (ops : List KeyOp) : Option (List KeyOp) :=
  unfold (fun head => rotationsOf ops head.newKey) fuel (additions ops) []

/-- The sort of a map returns a list. -/
def Topsorts {hash : KeyOp → KeyOpDigest} (order : KeyOpOrder) (map : CaMap hash) (sorted : List KeyOp) : Prop :=
  ∃ fuel, topsort fuel (map.values order) = some sorted

variable {ops : List KeyOp}

theorem mem_rotationsOf {key : ShareKey} {op : KeyOp} : op ∈ rotationsOf ops key ↔ op ∈ ops ∧ op.oldKey = some key := by
  rw [rotationsOf, List.mem_filter, decide_eq_true_iff]

theorem mem_additions {op : KeyOp} : op ∈ additions ops ↔ op ∈ ops ∧ op.oldKey = none := by
  rw [additions, List.mem_reverse, List.mem_filter, isAdd_iff]

/-- There is a way to the operation from an addition: each operation on it rotates the key that the one before has
introduced. -/
inductive FromAddition (ops : List KeyOp) : KeyOp → Prop
  | addition {op : KeyOp} (member : op ∈ ops) (adds : op.oldKey = none) : FromAddition ops op
  | rotation {op before : KeyOp} (earlier : FromAddition ops before) (member : op ∈ ops)
      (rotates : op.oldKey = some before.newKey) : FromAddition ops op

/-- **The operations are a forest under the additions.** -/
structure Forest (ops : List KeyOp) : Prop where
  /-- The key that a rotation retires is introduced by one operation only. -/
  once : ∀ op ∈ ops, ∀ first ∈ ops, ∀ second ∈ ops, op.oldKey = some first.newKey →
    op.oldKey = some second.newKey → first = second
  rooted : ∀ op ∈ ops, FromAddition ops op

theorem FromAddition.mem {op : KeyOp} (rooted : FromAddition ops op) : op ∈ ops := by
  cases rooted with
  | addition member _ => exact member
  | rotation _ member _ => exact member

/-! ### What a sort lists -/

section Sorted

variable {sorted : List KeyOp} (sorts : Unfolds (fun head => rotationsOf ops head.newKey) (additions ops) sorted)

include sorts

theorem fromAddition_of_mem : ∀ op ∈ sorted, FromAddition ops op := by
  suffices along : ∀ done rest, sorted = done ++ rest → ∀ op ∈ done, FromAddition ops op from
    along sorted [] (List.append_nil _).symm
  intro done
  -- An operation was pushed by one that was popped before it.
  induction done using List.reverseRecOn with
  | nil => simp
  | append_singleton done last ih =>
    intro rest split op listed
    rw [List.append_assoc, List.singleton_append] at split
    have earlier := ih (last :: rest) split
    rcases List.mem_append.mp listed with before | here
    · exact earlier op before
    · rw [List.mem_singleton.mp here]
      rcases sorts.after_parent done last rest split with adds | ⟨parent, before, rotates⟩
      · exact .addition (mem_additions.mp adds).1 (mem_additions.mp adds).2
      · exact .rotation (earlier parent before) (mem_rotationsOf.mp rotates).1 (mem_rotationsOf.mp rotates).2

/-- **What is listed** is what comes from an addition. -/
theorem mem_sorted_iff (op : KeyOp) : op ∈ sorted ↔ FromAddition ops op := by
  refine ⟨fromAddition_of_mem sorts op, fun rooted => ?_⟩
  induction rooted with
  | addition member adds => exact sorts.perm.mem_iff.mpr (List.mem_append_left _ (mem_additions.mpr ⟨member, adds⟩))
  | rotation _ member rotates listed =>
    exact sorts.perm.mem_iff.mpr (List.mem_append_right _ (List.mem_flatMap.mpr
      ⟨_, listed, mem_rotationsOf.mpr ⟨member, rotates⟩⟩))

/-- **How often an operation is listed:** once if it is an addition, and once for every listed operation whose key it
rotates. -/
theorem count_sorted (distinct : ops.Nodup) {op : KeyOp} (member : op ∈ ops) :
    sorted.count op = (if op.oldKey = none then 1 else 0) + sorted.countP fun before => op.oldKey = some before.newKey := by
  have own : (additions ops).count op = if op.oldKey = none then 1 else 0 := by
    rw [additions, List.count_reverse, (distinct.filter _).count]
    simp [List.mem_filter, isAdd_iff, member]
  have children : ∀ list : List KeyOp, (list.flatMap fun head => rotationsOf ops head.newKey).count op
      = list.countP fun before => op.oldKey = some before.newKey := by
    intro list
    induction list with
    | nil => rfl
    | cons head list ih =>
      rw [List.flatMap_cons, List.count_append, List.countP_cons, ih, rotationsOf, (distinct.filter _).count, Nat.add_comm]
      simp [List.mem_filter, member]
  rw [sorts.perm.count_eq op, List.count_append, own, children]

/-- **Every operation of a forest is listed once.** -/
theorem Forest.count_eq_one (forest : Forest ops) (distinct : ops.Nodup) :
    ∀ {op : KeyOp}, FromAddition ops op → sorted.count op = 1 := by
  intro op rooted
  induction rooted with
  | addition member adds => simp [count_sorted sorts distinct member, adds]
  | @rotation op before earlier member rotates ih =>
    have introduced : (sorted.countP fun other => op.oldKey = some other.newKey) = sorted.count before := by
      rw [List.count]
      refine List.countP_congr fun other listed => ?_
      rw [decide_eq_true_iff, beq_iff_eq]
      have known := (fromAddition_of_mem sorts other listed).mem
      exact ⟨fun same => forest.once op member other known before earlier.mem same rotates, fun same => same ▸ rotates⟩
    rw [count_sorted sorts distinct member, introduced, ih]
    simp [rotates]

theorem Forest.perm (forest : Forest ops) (distinct : ops.Nodup) : sorted.Perm ops := by
  rw [List.perm_iff_count]
  intro op
  rw [distinct.count]
  split
  · rename_i member
    exact forest.count_eq_one sorts distinct (forest.rooted op member)
  · rename_i absent
    exact List.count_eq_zero.mpr fun listed => absent (fromAddition_of_mem sorts op listed).mem

/-- In a list of all operations each rotation comes after an operation that has introduced its old key. -/
theorem Forest.introduced_before (forest : Forest ops) {first last : List KeyOp} {op before : KeyOp}
    (split : sorted = first ++ op :: last) (member : before ∈ ops) (rotates : op.oldKey = some before.newKey) :
    before ∈ first := by
  have known : op ∈ ops := (fromAddition_of_mem sorts op (by simp [split])).mem
  rcases sorts.after_parent first op last split with adds | ⟨parent, earlier, child⟩
  · rw [(mem_additions.mp adds).2] at rotates
    cases rotates
  · have parentKnown := (fromAddition_of_mem sorts parent (by simp [split, earlier])).mem
    rw [forest.once op known before member parent parentKnown rotates (mem_rotationsOf.mp child).2]
    exact earlier

/-- **A sort that lists every operation once sorts a forest.** -/
theorem forest_of_perm (distinct : ops.Nodup) (perm : sorted.Perm ops) : Forest ops where
  once := by
    intro op member first isFirst second isSecond rotatesFirst rotatesSecond
    have counts := count_sorted sorts distinct member
    rw [perm.count_eq op, List.count_eq_one_of_mem distinct member, if_neg (by simp [rotatesFirst]), perm.countP_eq,
      Nat.zero_add] at counts
    by_contra apart
    -- Both introduce the key, so the rotation is listed twice.
    have both : [first, second].Subperm (ops.filter fun before => op.oldKey = some before.newKey) := by
      refine List.subperm_of_subset (by simp [apart]) (List.forall_mem_cons.mpr ⟨?_, List.forall_mem_singleton.mpr ?_⟩)
      · exact List.mem_filter.mpr ⟨isFirst, decide_eq_true rotatesFirst⟩
      · exact List.mem_filter.mpr ⟨isSecond, decide_eq_true rotatesSecond⟩
    have twice := both.length_le
    rw [← List.countP_eq_length_filter, ← counts] at twice
    simp at twice
  rooted op member := fromAddition_of_mem sorts op (perm.mem_iff.mpr member)

end Sorted

/-! ### Where the sort ends -/

/-- The one operation rotates the key that the other has introduced. -/
def Rotates (ops : List KeyOp) (below above : KeyOp) : Prop :=
  below ∈ ops ∧ above ∈ ops ∧ below.oldKey = some above.newKey

/-- **No circle**: what comes from an addition does not come from itself. -/
def Acyclic (ops : List KeyOp) : Prop := ∀ op, FromAddition ops op → ¬ Relation.TransGen (Rotates ops) op op

theorem acyclic_of_additions (adds : ∀ op ∈ ops, op.oldKey = none) : Acyclic ops := by
  intro op rooted circle
  obtain ⟨above, step, -⟩ := Relation.TransGen.head'_iff.mp circle
  exact absurd ((adds op step.1).symm.trans step.2.2) (by simp)

theorem Forest.acyclic (forest : Forest ops) : Acyclic ops := by
  intro op rooted
  induction rooted with
  | addition member adds =>
    intro circle
    obtain ⟨above, step, -⟩ := Relation.TransGen.head'_iff.mp circle
    exact absurd (adds.symm.trans step.2.2) (by simp)
  | @rotation op before earlier member rotates ih =>
    intro circle
    obtain ⟨above, step, back⟩ := Relation.TransGen.head'_iff.mp circle
    -- What the operation rotates the key of is on the circle as well.
    obtain rfl := forest.once op member above step.2.1 before earlier.mem step.2.2 rotates
    exact ih (Relation.TransGen.tail' back step)

/-- **The sort ends** unless there is a circle. -/
theorem Acyclic.exists_unfolds (acyclic : Acyclic ops) :
    ∃ sorted, Unfolds (fun head => rotationsOf ops head.newKey) (additions ops) sorted := by
  have ends : ∀ op, FromAddition ops op → Acc (fun child parent => child ∈ rotationsOf ops parent.newKey) op := by
    have finite : Finite {op // FromAddition ops op} :=
      Set.Finite.to_subtype (ops.finite_toSet.subset fun _ rooted => FromAddition.mem rooted)
    have wellFounded : WellFounded fun below above : {op // FromAddition ops op} =>
        Relation.TransGen (Rotates ops) below.1 above.1 := by
      have : IsTrans {op // FromAddition ops op} fun below above => Relation.TransGen (Rotates ops) below.1 above.1 :=
        ⟨fun _ _ _ => Relation.TransGen.trans⟩
      have : Std.Irrefl fun below above : {op // FromAddition ops op} =>
          Relation.TransGen (Rotates ops) below.1 above.1 := ⟨fun op => acyclic op.1 op.2⟩
      exact Finite.wellFounded_of_trans_of_irrefl _
    refine fun op rooted => wellFounded.induction (C := fun above => Acc _ above.1) ⟨op, rooted⟩ fun above ih => ?_
    refine Acc.intro _ fun child rotates => ?_
    obtain ⟨known, same⟩ := mem_rotationsOf.mp rotates
    exact ih ⟨child, .rotation above.2 known same⟩ (.single ⟨known, above.2.mem, same⟩)
  refine Unfolding.exists_unfolds fun op adds => ends op ?_
  exact .addition (mem_additions.mp adds).1 (mem_additions.mp adds).2

/-- **The sort is a linearisation of the forests, and of nothing else:** it ends with a list of every operation, once
each, with each rotation after the operations that have introduced its old key, exactly if every rotation retires a
key that one operation has introduced and that goes back to an addition. -/
theorem linearises_iff_forest {hash : KeyOp → KeyOpDigest} (order : KeyOpOrder) (map : CaMap hash) :
    (∃ sorted, Topsorts order map sorted ∧ sorted.Nodup ∧ (∀ op, op ∈ sorted ↔ map.Holds op) ∧
      ∀ first op last, sorted = first ++ op :: last → ∀ before, map.Holds before →
        op.oldKey = some before.newKey → before ∈ first) ↔
      Forest (map.values order) := by
  have distinct := map.nodup_values order
  constructor
  · rintro ⟨sorted, sorts, nodup, all, -⟩
    refine forest_of_perm sorts distinct ((List.perm_ext_iff_of_nodup nodup distinct).mpr fun op => ?_)
    rw [all, CaMap.mem_values]
  · intro forest
    obtain ⟨sorted, sorts⟩ := forest.acyclic.exists_unfolds
    have perm := forest.perm sorts distinct
    refine ⟨sorted, sorts, perm.nodup_iff.mpr distinct, fun op => ?_, ?_⟩
    · rw [perm.mem_iff, CaMap.mem_values]
    · intro first op last split before holds rotates
      exact forest.introduced_before sorts split (CaMap.mem_values.mpr holds) rotates

namespace Sample

def key (n : Nat) : ShareKey := ⟨BitVec.ofNat 256 n⟩

/-- An operation of principal 7 by the number of its signature. -/
def sign {P : Type} (number : Nat) (payload : P) : Signed P := ⟨payload, ⟨7⟩, BitVec.ofNat 512 number⟩

def adds (number new : Nat) : KeyOp := .add (sign number ⟨key new⟩)

def rotates (number old new : Nat) : KeyOp := .rotate (sign number ⟨key old, key new⟩)

/-- The digest of an operation is its signature. -/
def hash : KeyOp → KeyOpDigest
  | .add op => ⟨op.signature.setWidth 256⟩
  | .rotate op => ⟨op.signature.setWidth 256⟩

/-- Key 1 is added, rotated to key 2, and key 2 is rotated back to key 1. -/
def circle : CaMap hash := ((CaMap.empty.insert (adds 1 1)).insert (rotates 2 1 2)).insert (rotates 3 2 1)

theorem values_circle : circle.values .sorted = [adds 1 1, rotates 2 1 2, rotates 3 2 1] := by decide +kernel

/-- **The sort of a circle never ends.** Each of the three operations introduces a key that is rotated once, so every
operation that is popped pushes another one. -/
theorem sort_of_circle_never_ends : ¬ ∃ sorted, Topsorts .sorted circle sorted := by
  rintro ⟨sorted, fuel, sorts⟩
  rw [values_circle] at sorts
  have unfolds : Unfolds _ _ sorted := ⟨fuel, sorts⟩
  have one : ∀ op ∈ sorted, (rotationsOf [adds 1 1, rotates 2 1 2, rotates 3 2 1] op.newKey).length = 1 := by
    intro op listed
    have known := (fromAddition_of_mem unfolds op listed).mem
    have all : ∀ op ∈ [adds 1 1, rotates 2 1 2, rotates 3 2 1],
        (rotationsOf [adds 1 1, rotates 2 1 2, rotates 3 2 1] op.newKey).length = 1 := by decide +kernel
    exact all op known
  have length := unfolds.perm.length_eq
  rw [List.length_append, List.length_flatMap, List.map_congr_left one, List.map_const', List.sum_replicate] at length
  have start : (additions [adds 1 1, rotates 2 1 2, rotates 3 2 1]).length = 1 := by decide +kernel
  simp [start] at length

end Sample

end KeyOp

end KeyhiveEval.Core
