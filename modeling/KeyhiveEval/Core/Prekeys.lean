/-
**`individual/state.rs`: the prekeys of an individual.**

An individual keeps the operations on its prekeys. The active prekeys are computed anew after every operation: the keys
that were introduced, without those that a rotation retires, whatever the order in which the two came in.

* `PrekeyState.build` — the active prekeys; `mem_build` says which keys they are.
* `PrekeyState.Harmless` — an operation does not rotate an active key onto one that was introduced or retired before.
* `PrekeyState.size_build_insert` — such operations, and no others, leave at least as many active prekeys.
* **`PrekeyState.never_shrinks_iff`** — there is always an active prekey, and there are never fewer, exactly in the runs of
  harmless operations that do not start with a key rotated onto itself.
* `Individual.Reached.offers_own` — what an individual offers, over all that it receives and merges.
-/

import KeyhiveEval.Core.KeyOps
import KeyhiveEval.Lib.Loops

namespace KeyhiveEval.Core

open Std Beekem OrderedSets

variable {hash : KeyOp → KeyOpDigest}

/-! ### More on content-addressed maps -/

namespace CaMap

/-- The entries of the other map that are new. -/
def merge (map other : CaMap hash) : CaMap hash where
  entries := other.entries.foldl (fun all digest op => all.insertIfNew digest op) map.entries
  keyed {digest op} found := by
    rw [getElem?_foldl_insertIfNew, Option.or_eq_some_iff] at found
    exact found.elim map.keyed fun new => other.keyed new.2

/-- Digests tell the operations apart. -/
def Told (hash : KeyOp → KeyOpDigest) (ops : List KeyOp) : Prop :=
  ∀ first ∈ ops, ∀ second ∈ ops, hash first = hash second → first = second

theorem told_of_nodup {ops : List KeyOp} (digests : (ops.map hash).Nodup) : Told hash ops :=
  fun _ here _ there => List.inj_on_of_nodup_map digests here there

theorem holds_insert {map : CaMap hash} {op other : KeyOp}
    (apart : ∀ old, map.Holds old → hash old = hash op → old = op) :
    (map.insert op).Holds other ↔ other = op ∨ map.Holds other := by
  show (map.entries.insert _ _)[hash other]? = _ ↔ _
  rw [getElem?_insert_iff]
  constructor
  · intro found
    split at found
    · exact .inl (Option.some.inj found).symm
    · exact .inr found
  · rintro (rfl | holds)
    · rw [if_pos rfl]
    · split
      · rename_i same
        rw [apart other holds same]
      · exact holds

theorem not_holds_empty (op : KeyOp) : ¬ (empty : CaMap hash).Holds op := by
  simp [empty, Holds]

theorem holds_merge {map other : CaMap hash}
    (apart : ∀ old new, map.Holds old → other.Holds new → hash old = hash new → old = new) (op : KeyOp) :
    (map.merge other).Holds op ↔ map.Holds op ∨ other.Holds op := by
  show (other.entries.foldl (fun all digest op => all.insertIfNew digest op) map.entries)[hash op]? = _ ↔ _
  rw [getElem?_foldl_insertIfNew, Option.or_eq_some_iff]
  constructor
  · exact fun found => found.imp_right And.right
  · intro either
    cases here : map.entries[hash op]? with
    | none => exact .inr ⟨rfl, either.resolve_left fun held => by simp [Holds, here] at held⟩
    | some old =>
      have held : map.Holds old := by rw [Holds, ← map.keyed here, here]
      rcases either with same | new
      · exact .inl (here.symm.trans same)
      · rw [apart old op held new (map.keyed here).symm]
        exact .inl rfl

end CaMap

/-! ### The state -/

/-- The operations on the prekeys of an individual. -/
structure PrekeyState (hash : KeyOp → KeyOpDigest) where
  ops : CaMap hash

/-- The signature does not verify. -/
inductive VerificationError
  | signature
deriving DecidableEq

namespace PrekeyState

def new (hash : KeyOp → KeyOpDigest) (initialOp : KeyOp) : PrekeyState hash := ⟨CaMap.empty.insert initialOp⟩

def insertOp (verifies : KeyOp → Bool) (state : PrekeyState hash) (op : KeyOp) :
    Except VerificationError (PrekeyState hash) :=
  if verifies op then .ok ⟨state.ops.insert op⟩ else .error .signature

def merge (state fork : PrekeyState hash) : PrekeyState hash := ⟨state.ops.merge fork.ops⟩

def build (order : KeyOpOrder) (state : PrekeyState hash) : ExtTreeSet ShareKey :=
  let ops := state.ops.values order
  let keys := (ops.map KeyOp.newKey).foldl (fun keys key => keys.insert key) ∅
  (ops.filterMap KeyOp.oldKey).foldl (fun keys tombstone => keys.erase tombstone) keys

/-- An operation has introduced the key. -/
def Introduced (state : PrekeyState hash) (key : ShareKey) : Prop := ∃ op, state.ops.Holds op ∧ op.newKey = key

def Retired (state : PrekeyState hash) (key : ShareKey) : Prop := ∃ op, state.ops.Holds op ∧ op.oldKey = some key

/-- **The active prekeys** are those that were introduced and are not retired. -/
theorem mem_build {order : KeyOpOrder} {state : PrekeyState hash} {key : ShareKey} :
    key ∈ state.build order ↔ state.Introduced key ∧ ¬ state.Retired key := by
  simp only [build, mem_foldl_erase, mem_foldl_insert, List.mem_map, List.mem_filterMap, CaMap.mem_values, Introduced,
    Retired]
  simp

/-- The operation does not rotate an active key onto one that was introduced or retired before. -/
def Harmless (order : KeyOpOrder) (state : PrekeyState hash) (op : KeyOp) : Prop :=
  ∀ old, op.oldKey = some old → old ∈ state.build order → ¬ state.Introduced op.newKey ∧ ¬ state.Retired op.newKey

section Insert

variable (order : KeyOpOrder) {state : PrekeyState hash} {op : KeyOp}
  (apart : ∀ old, state.ops.Holds old → hash old = hash op → old = op)

include apart

variable {key : ShareKey}

theorem introduced_insert :
    Introduced ⟨state.ops.insert op⟩ key ↔ key = op.newKey ∨ state.Introduced key := by
  simp only [Introduced, CaMap.holds_insert apart, or_and_right, exists_or, exists_eq_left]
  exact or_congr_left eq_comm

theorem retired_insert :
    Retired ⟨state.ops.insert op⟩ key ↔ op.oldKey = some key ∨ state.Retired key := by
  simp only [Retired, CaMap.holds_insert apart, or_and_right, exists_or, exists_eq_left]

theorem mem_build_insert :
    key ∈ build order ⟨state.ops.insert op⟩ ↔
      (key ∈ state.build order ∨ (key = op.newKey ∧ ¬ state.Retired key)) ∧ op.oldKey ≠ some key := by
  rw [mem_build, mem_build, introduced_insert apart, retired_insert apart]
  tauto

/-- The new key joins the active ones if it was not retired. -/
theorem build_insert_of_add (adds : op.oldKey = none) :
    (state.Retired op.newKey ∧ build order ⟨state.ops.insert op⟩ = state.build order) ∨
      (¬ state.Retired op.newKey ∧ build order ⟨state.ops.insert op⟩ = (state.build order).insert op.newKey) := by
  by_cases retired : state.Retired op.newKey
  · refine .inl ⟨retired, ExtTreeSet.ext_mem fun key => ?_⟩
    rw [mem_build_insert order apart, adds]
    grind
  · refine .inr ⟨retired, ExtTreeSet.ext_mem fun key => ?_⟩
    rw [mem_build_insert order apart, adds, mem_insert_iff]
    grind

variable {old : ShareKey}

/-- The new key joins the active ones if it was not retired, and the old key leaves them. -/
theorem build_insert_of_rotate (rotates : op.oldKey = some old) :
    (state.Retired op.newKey ∧ build order ⟨state.ops.insert op⟩ = (state.build order).erase old) ∨
      (¬ state.Retired op.newKey ∧
        build order ⟨state.ops.insert op⟩ = ((state.build order).insert op.newKey).erase old) := by
  by_cases retired : state.Retired op.newKey
  · refine .inl ⟨retired, ExtTreeSet.ext_mem fun key => ?_⟩
    rw [mem_build_insert order apart, rotates, mem_erase_iff]
    grind
  · refine .inr ⟨retired, ExtTreeSet.ext_mem fun key => ?_⟩
    rw [mem_build_insert order apart, rotates, mem_erase_iff, mem_insert_iff]
    grind

omit apart in
/-- A rotation is harmless unless it takes an active key without putting a new one in its place. -/
theorem harmless_iff (rotates : op.oldKey = some old) :
    state.Harmless order op ↔
      (old ∈ state.build order → op.newKey ∉ state.build order ∧ ¬ state.Retired op.newKey) := by
  have active : op.newKey ∈ state.build order ↔ state.Introduced op.newKey ∧ ¬ state.Retired op.newKey := mem_build
  constructor
  · intro harmless isActive
    obtain ⟨fresh, kept⟩ := harmless old rotates isActive
    exact ⟨fun both => fresh (active.mp both).1, kept⟩
  · intro free old' rotates' isActive
    rw [rotates, Option.some.injEq] at rotates'
    obtain ⟨inactive, kept⟩ := free (rotates' ▸ isActive)
    exact ⟨fun introduced => inactive (active.mpr ⟨introduced, kept⟩), kept⟩

/-- **An operation leaves at least as many active prekeys exactly if it is harmless.** -/
theorem size_build_insert :
    (state.build order).size ≤ (build order ⟨state.ops.insert op⟩).size ↔ state.Harmless order op := by
  cases change : op.oldKey with
  | none =>
    refine iff_of_true ?_ fun old rotates => by simp [change] at rotates
    rcases build_insert_of_add order apart change with ⟨-, same⟩ | ⟨-, same⟩
    · rw [same]
    · rw [same]
      exact ExtTreeSet.size_le_size_insert
  | some old =>
    rw [harmless_iff order change]
    have counted (isActive : old ∈ state.build order) : 0 < (state.build order).size := by
      have some : (state.build order).isEmpty = false := isEmpty_eq_false_iff.mpr ⟨old, isActive⟩
      rw [ExtTreeSet.isEmpty_eq_size_beq_zero, beq_eq_false_iff_ne] at some
      omega
    rcases build_insert_of_rotate order apart change with ⟨retired, same⟩ | ⟨kept, same⟩
    · rw [same, ExtTreeSet.size_erase]
      by_cases isActive : old ∈ state.build order
      · have := counted isActive
        rw [if_pos (ExtTreeSet.contains_iff_mem.mpr isActive)]
        exact iff_of_false (by omega) fun free => (free isActive).2 retired
      · rw [if_neg fun present => isActive (ExtTreeSet.contains_iff_mem.mp present)]
        exact iff_of_true le_rfl fun present => absurd present isActive
    · rw [same, ExtTreeSet.size_erase, ExtTreeSet.size_insert]
      simp only [ExtTreeSet.contains_iff_mem, mem_insert_iff]
      by_cases isActive : old ∈ state.build order
      · have := counted isActive
        rw [if_pos (.inr isActive)]
        by_cases already : op.newKey ∈ state.build order
        · rw [if_pos already]
          exact iff_of_false (by omega) fun free => (free isActive).1 already
        · rw [if_neg already]
          exact iff_of_true (by omega) fun _ => ⟨already, kept⟩
      · refine iff_of_true ?_ fun present => absurd present isActive
        split <;> split <;> grind

end Insert

/-! ### Runs -/

/-- The state after some operations, one after another. -/
def after (hash : KeyOp → KeyOpDigest) (first : KeyOp) (inserted : List KeyOp) : PrekeyState hash :=
  inserted.foldl (fun state op => ⟨state.ops.insert op⟩) (new hash first)

theorem after_snoc (first : KeyOp) (inserted : List KeyOp) (op : KeyOp) :
    after hash first (inserted ++ [op]) = ⟨(after hash first inserted).ops.insert op⟩ := by
  rw [after, List.foldl_append]
  rfl

theorem holds_new {first : KeyOp} (op : KeyOp) : (new hash first).ops.Holds op ↔ op ∈ [first] := by
  show (CaMap.empty.insert first).Holds op ↔ _
  rw [CaMap.holds_insert fun old held => absurd held (CaMap.not_holds_empty old)]
  simp [CaMap.not_holds_empty]

theorem holds_after {first : KeyOp} {inserted : List KeyOp} (told : CaMap.Told hash (first :: inserted)) (op : KeyOp) :
    (after hash first inserted).ops.Holds op ↔ op ∈ first :: inserted := by
  induction inserted using List.reverseRecOn generalizing op with
  | nil => exact holds_new op
  | append_singleton inserted last ih =>
    have before : CaMap.Told hash (first :: inserted) := fun one here two there =>
      told one (List.mem_append_left _ here) two (List.mem_append_left _ there)
    rw [after_snoc, CaMap.holds_insert fun old holds => told old (List.mem_append_left _ ((ih before old).mp holds)) last
      (by simp), ih before]
    simp [or_comm, or_left_comm]

theorem apart_after {first op : KeyOp} {inserted : List KeyOp} (told : CaMap.Told hash (first :: (inserted ++ [op]))) :
    ∀ old, (after hash first inserted).ops.Holds old → hash old = hash op → old = op := by
  intro old holds
  have before : CaMap.Told hash (first :: inserted) := fun one here two there =>
    told one (List.mem_append_left _ here) two (List.mem_append_left _ there)
  exact told old (List.mem_append_left _ ((holds_after before old).mp holds)) op (by simp)

inductive Call (hash : KeyOp → KeyOpDigest)
  | insertOp (op : KeyOp)
  | merge (fork : PrekeyState hash)

def call (verifies : KeyOp → Bool) (state : PrekeyState hash) :
    Call hash → Except VerificationError (PrekeyState hash)
  | .insertOp op => state.insertOp verifies op
  | .merge fork => .ok (state.merge fork)

/-- The operations that a call inserts, one after another. -/
def Call.inserted (order : KeyOpOrder) : Call hash → List KeyOp
  | .insertOp op => [op]
  | .merge fork => fork.ops.values order

def run (verifies : KeyOp → Bool) (first : KeyOp) (calls : List (Call hash)) :
    Except VerificationError (PrekeyState hash) :=
  calls.foldlM (call verifies) (new hash first)

/-- **A run inserts operations:** the state at its end holds those that its calls insert. -/
theorem holds_of_run (order : KeyOpOrder) {verifies : KeyOp → Bool} {first : KeyOp} {calls : List (Call hash)}
    {state : PrekeyState hash} (ran : run verifies first calls = .ok state)
    (told : CaMap.Told hash (first :: calls.flatMap (Call.inserted order))) (op : KeyOp) :
    state.ops.Holds op ↔ op ∈ first :: calls.flatMap (Call.inserted order) := by
  have spec := Stateful.foldlM_ok_induct (motive := fun done state => (∀ call ∈ done, call ∈ calls) ∧
    ∀ op, state.ops.Holds op ↔ op ∈ first :: done.flatMap (Call.inserted order)) ran ⟨by simp, ?_⟩ ?_
  · exact spec.2 op
  · exact fun op => holds_new op
  · rintro done next before state member ⟨within, holds⟩ called
    have known {op : KeyOp} (listed : op ∈ first :: done.flatMap (Call.inserted order)) :
        op ∈ first :: calls.flatMap (Call.inserted order) := by
      rcases List.mem_cons.mp listed with rfl | listed
      · exact List.mem_cons_self
      · obtain ⟨call, isDone, here⟩ := List.mem_flatMap.mp listed
        exact List.mem_cons_of_mem _ (List.mem_flatMap.mpr ⟨call, within call isDone, here⟩)
    have new {op : KeyOp} (listed : op ∈ next.inserted order) : op ∈ first :: calls.flatMap (Call.inserted order) :=
      List.mem_cons_of_mem _ (List.mem_flatMap.mpr ⟨next, member, listed⟩)
    refine ⟨fun call listed => ?_, fun op => ?_⟩
    · rcases List.mem_append.mp listed with old | last
      · exact within call old
      · exact List.mem_singleton.mp last ▸ member
    · rw [List.flatMap_append, List.flatMap_singleton, ← List.cons_append, List.mem_append, ← holds]
      cases next with
      | insertOp inserted =>
        rw [call, insertOp] at called
        split at called
        · obtain rfl := Except.ok.inj called
          rw [CaMap.holds_insert fun old held => told old (known ((holds old).mp held)) inserted
            (new (by simp [Call.inserted]))]
          simp [Call.inserted, or_comm]
        · cases called
      | merge fork =>
        obtain rfl := Except.ok.inj called
        have listed (op : KeyOp) : op ∈ (Call.merge fork).inserted order ↔ fork.ops.Holds op := CaMap.mem_values
        rw [listed]
        exact CaMap.holds_merge (fun old other held held' => told old (known ((holds old).mp held)) other
          (new ((listed other).mpr held'))) op

/-- Runs of the same operations, in any order and by any calls, have the same active prekeys. -/
theorem build_eq_of_same {state state' : PrekeyState hash} (same : ∀ op, state.ops.Holds op ↔ state'.ops.Holds op)
    (order order' : KeyOpOrder) : state.build order = state'.build order' := by
  refine ExtTreeSet.ext_mem fun key => ?_
  simp only [mem_build, Introduced, Retired, same]

/-- The first operation alone leaves an active prekey unless it rotates a key onto itself. -/
theorem build_new (order : KeyOpOrder) (first : KeyOp) :
    ((new hash first).build order).isEmpty = false ↔ first.oldKey ≠ some first.newKey := by
  rw [isEmpty_eq_false_iff]
  simp [mem_build, Introduced, Retired, holds_new]

section NeverShrinks

variable (order : KeyOpOrder) {first : KeyOp} {inserted : List KeyOp}

/-- **There are never fewer active prekeys exactly if every operation is harmless.** -/
theorem grows_iff (told : CaMap.Told hash (first :: inserted)) :
    (∀ done op, done ++ [op] <+: inserted →
      ((after hash first done).build order).size ≤ ((after hash first (done ++ [op])).build order).size) ↔
    ∀ done op, done ++ [op] <+: inserted → (after hash first done).Harmless order op := by
  refine forall_congr' fun done => forall_congr' fun op => imp_congr_right fun within => ?_
  rw [after_snoc]
  refine size_build_insert order (apart_after fun one here two there => ?_)
  exact told one ((List.cons_prefix_cons.mpr ⟨rfl, within⟩).subset here) two
    ((List.cons_prefix_cons.mpr ⟨rfl, within⟩).subset there)

theorem nonempty_of_grows (some : ((new hash first).build order).isEmpty = false)
    (grows : ∀ done op, done ++ [op] <+: inserted →
      ((after hash first done).build order).size ≤ ((after hash first (done ++ [op])).build order).size) :
    ∀ done, done <+: inserted → ((after hash first done).build order).isEmpty = false := by
  intro done
  induction done using List.reverseRecOn with
  | nil => exact fun _ => some
  | append_singleton done op ih =>
    intro within
    have before := ih ((List.prefix_append done [op]).trans within)
    have size := grows done op within
    rw [ExtTreeSet.isEmpty_eq_size_beq_zero, beq_eq_false_iff_ne] at before ⊢
    omega

end NeverShrinks

/-- **The prekeys never run out exactly in the runs of harmless operations.** In a run of calls there is an active prekey
after each operation, no operation leaves fewer of them, and every other run of the same operations ends with the
same ones, if and only if the first operation does not rotate a key onto itself and no later one rotates an active
key onto a key that was introduced or retired before. -/
theorem never_shrinks_iff (order : KeyOpOrder) {verifies : KeyOp → Bool} {first : KeyOp} {calls : List (Call hash)}
    {state : PrekeyState hash} (ran : run verifies first calls = .ok state)
    (told : CaMap.Told hash (first :: calls.flatMap (Call.inserted order))) :
    ((∀ done, done <+: calls.flatMap (Call.inserted order) →
        ((after hash first done).build order).isEmpty = false) ∧
      (∀ done op, done ++ [op] <+: calls.flatMap (Call.inserted order) →
        ((after hash first done).build order).size ≤ ((after hash first (done ++ [op])).build order).size) ∧
      ∀ (order' : KeyOpOrder) (first' : KeyOp) (calls' : List (Call hash)) (state' : PrekeyState hash),
        run verifies first' calls' = .ok state' →
        (∀ op, op ∈ first' :: calls'.flatMap (Call.inserted order') ↔
          op ∈ first :: calls.flatMap (Call.inserted order)) →
        state'.build order' = state.build order) ↔
    first.oldKey ≠ some first.newKey ∧
      ∀ done op, done ++ [op] <+: calls.flatMap (Call.inserted order) →
        (after hash first done).Harmless order op := by
  rw [← grows_iff order told, ← build_new order first]
  constructor
  · rintro ⟨nonempty, grows, -⟩
    exact ⟨nonempty [] List.nil_prefix, grows⟩
  · rintro ⟨some, grows⟩
    refine ⟨nonempty_of_grows order some grows, grows, ?_⟩
    intro order' first' calls' state' ran' same
    refine build_eq_of_same (fun op => ?_) order' order
    have told' : CaMap.Told hash (first' :: calls'.flatMap (Call.inserted order')) := fun one here two there =>
      told one ((same one).mp here) two ((same two).mp there)
    rw [holds_of_run order' ran' told', same, holds_of_run order ran told]

namespace Sample

open KeyOp.Sample

/-- Two keys are added, and the first is rotated to a third. -/
theorem prekeys_kept_after_rotation :
    ((after KeyOp.Sample.hash (adds 1 1) [adds 2 2, rotates 3 1 3]).build .sorted).isEmpty = false := by
  have told : CaMap.Told KeyOp.Sample.hash [adds 1 1, adds 2 2, rotates 3 1 3] := CaMap.told_of_nodup (by decide +kernel)
  have ran : run (fun _ => true) (adds 1 1) [.insertOp (adds 2 2), .insertOp (rotates 3 1 3)]
      = .ok (after KeyOp.Sample.hash (adds 1 1) [adds 2 2, rotates 3 1 3]) := rfl
  refine ((never_shrinks_iff .sorted ran told).mpr ⟨by decide +kernel, fun done op within => ?_⟩).1 _
    (List.prefix_refl _)
  have before : CaMap.Told KeyOp.Sample.hash [adds 1 1, adds 2 2] := CaMap.told_of_nodup (by decide +kernel)
  have cases' : (done = [] ∧ op = adds 2 2) ∨ (done = [adds 2 2] ∧ op = rotates 3 1 3) := by
    match done with
    | [] => exact .inl ⟨rfl, (List.cons_prefix_cons.mp within).1⟩
    | [head] =>
      obtain ⟨rfl, rest⟩ := List.cons_prefix_cons.mp within
      exact .inr ⟨rfl, (List.cons_prefix_cons.mp rest).1⟩
    | _ :: _ :: _ => simpa [Call.inserted] using within.length_le
  rcases cases' with ⟨rfl, rfl⟩ | ⟨rfl, rfl⟩
  · intro old rotates
    cases rotates
  · intro old _ _
    simp only [Introduced, Retired, holds_after before]
    decide +kernel

/-- **An individual without prekeys.** Key 1 is added, rotated to key 2, and key 2 is rotated back to key 1: both keys
are retired. -/
theorem rotated_back_leaves_no_prekey :
    ∃ state : PrekeyState KeyOp.Sample.hash,
      run (fun _ => true) (adds 1 1) [.insertOp (rotates 2 1 2), .insertOp (rotates 3 2 1)] = .ok state ∧
        (state.build .sorted).isEmpty = true := ⟨_, rfl, by decide +kernel⟩

end Sample

end PrekeyState

/-! ### Individuals -/

/-- An individual: its key, and its prekeys with the operations they are computed from. -/
structure Individual (hash : KeyOp → KeyOpDigest) where
  id : Identifier
  prekeys : ExtTreeSet ShareKey
  prekeyState : PrekeyState hash

inductive ReceivePrekeyOpError
  | incorrectSigner
  | verificationError (error : VerificationError)
deriving DecidableEq

namespace Individual

def new (order : KeyOpOrder) (initialOp : KeyOp) : Individual hash :=
  let prekeyState := PrekeyState.new hash initialOp
  ⟨initialOp.issuer, prekeyState.build order, prekeyState⟩

def receivePrekeyOp (verifies : KeyOp → Bool) (order : KeyOpOrder) (individual : Individual hash) (op : KeyOp) :
    Except ReceivePrekeyOpError (Individual hash) :=
  if op.issuer ≠ individual.id then .error .incorrectSigner
  else match individual.prekeyState.insertOp verifies op with
    | .error error => .error (.verificationError error)
    | .ok prekeyState => .ok { individual with prekeyState, prekeys := prekeyState.build order }

def merge (order : KeyOpOrder) (individual fork : Individual hash) : Individual hash :=
  let prekeyState := individual.prekeyState.merge fork.prekeyState
  { individual with prekeyState, prekeys := prekeyState.build order }

/-- The states of an individual: new, after an operation that was received, and after a fork was merged. -/
inductive Reached (verifies : KeyOp → Bool) (id : Identifier) : Individual hash → Prop
  | new {op : KeyOp} (order : KeyOpOrder) (own : op.issuer = id) : Reached verifies id (.new order op)
  | receive {individual result : Individual hash} {op : KeyOp} {order : KeyOpOrder}
      (before : Reached verifies id individual)
      (received : individual.receivePrekeyOp verifies order op = .ok result) : Reached verifies id result
  | merge {individual fork : Individual hash} (order : KeyOpOrder) (before : Reached verifies id individual)
      (forked : Reached verifies id fork) : Reached verifies id (individual.merge order fork)

theorem receivePrekeyOp_ok {verifies : KeyOp → Bool} {order : KeyOpOrder} {individual result : Individual hash}
    {op : KeyOp} (received : individual.receivePrekeyOp verifies order op = .ok result) :
    op.issuer = individual.id ∧ result = { individual with
      prekeyState := ⟨individual.prekeyState.ops.insert op⟩
      prekeys := PrekeyState.build order ⟨individual.prekeyState.ops.insert op⟩ } := by
  unfold receivePrekeyOp PrekeyState.insertOp at received
  split_ifs at received with foreign verified
  · exact ⟨not_not.mp foreign, (Except.ok.inj received).symm⟩

/-- **An individual offers its own prekeys only.** In every state its operations were issued by itself, and it offers
exactly the keys that one of them introduces and none retires. -/
theorem Reached.offers_own {verifies : KeyOp → Bool} {id : Identifier} {individual : Individual hash}
    (reached : Reached verifies id individual) :
    individual.id = id ∧ (∀ op, individual.prekeyState.ops.Holds op → op.issuer = id) ∧
      ∀ key, key ∈ individual.prekeys ↔
        individual.prekeyState.Introduced key ∧ ¬ individual.prekeyState.Retired key := by
  induction reached with
  | new order own =>
    refine ⟨own, fun op held => ?_, fun key => PrekeyState.mem_build⟩
    rw [List.mem_singleton.mp ((PrekeyState.holds_new op).mp held), own]
  | @receive individual result op order before received hyp =>
    obtain ⟨issued, rfl⟩ := receivePrekeyOp_ok received
    refine ⟨hyp.1, fun other held => ?_, fun key => PrekeyState.mem_build⟩
    rw [CaMap.Holds, CaMap.insert, getElem?_insert_iff] at held
    split at held
    · rw [← Option.some.inj held, issued, hyp.1]
    · exact hyp.2.1 other held
  | merge order before forked hyp hyp' =>
    refine ⟨hyp.1, fun op held => ?_, fun key => PrekeyState.mem_build⟩
    have found := held
    rw [CaMap.Holds, Individual.merge, PrekeyState.merge, CaMap.merge, getElem?_foldl_insertIfNew,
      Option.or_eq_some_iff] at found
    exact found.elim (hyp.2.1 op) fun new => hyp'.2.1 op new.2

open KeyOp.Sample in
/-- A fork has rotated key 1 to key 2, and is merged. -/
theorem rotated_key_not_offered : ∃ individual : Individual KeyOp.Sample.hash,
    Reached (fun _ => true) (adds 1 1).issuer individual ∧ key 1 ∉ individual.prekeys := by
  have first := @Reached.new KeyOp.Sample.hash (fun _ => true) _ (adds 1 1) .sorted rfl
  have merged := first.merge .sorted (@Reached.receive _ _ _ _ _ (rotates 2 1 2) .sorted first rfl)
  refine ⟨_, merged, fun offered => ((merged.offers_own.2.2 _).mp offered).2 ⟨rotates 2 1 2, ?_, rfl⟩⟩
  show _ = _
  decide +kernel

end Individual

end KeyhiveEval.Core
