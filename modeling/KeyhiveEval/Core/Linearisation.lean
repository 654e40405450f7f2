/-
**The order in which a group takes its operations.**

What the walk from the heads found is drained; this module puts the two together for the states of a group.

* `standing` — no operation of a group comes before itself: what an operation is given out before stands lower.
* **`GroupState.Grown.sorts`** — everything that the heads reach is given out, once, and before what it refers to.
* **`GroupState.linearises_of_acknowledged`** — a delegation is given out before the revocations of its proof, if there
  is one of them or if it refers to all of them. The edge that is to see to this goes to one revocation only.
-/

import KeyhiveEval.Core.Authority
import KeyhiveEval.Core.Draining

set_option linter.unusedSectionVars false

namespace KeyhiveEval.Core

open Std Beekem OrderedSets TopologicalSort

section

variable {T : Type} {hash : MembershipOperation T → MembershipDigest}

/-! ### There is no circle -/

/-- How far up an operation stands. A revocation stands right above what it revokes, whatever its proof. -/
def MembershipOperation.standing : MembershipOperation T → Nat
  | .delegation dlg => 2 * dlg.weight
  | .revocation rev => 2 * rev.payload.revoke.weight + 1

namespace MembershipOperation

theorem Reaches.weight_le {op other : MembershipOperation T} (reaches : op.Reaches other) :
    other.weight ≤ op.weight := by
  induction reaches with
  | refl => exact Nat.le_refl _
  | tail _ refers ih => exact (weight_lt refers).le.trans ih

/-- The proof of a revocation is what it revokes, or stands above it. -/
def ProofAbove : MembershipOperation T → Prop
  | .delegation _ => True
  | .revocation rev => ∀ proof, rev.payload.proof = some proof →
      proof ∈ rev.payload.revoke :: rev.payload.revoke.proofLineage

theorem standing_lt {op before : MembershipOperation T} (above : op.ProofAbove) (refers : before ∈ op.afterAuth) :
    before.standing < op.standing := by
  have lighter := weight_lt refers
  cases op with
  | delegation dlg =>
    cases before with
    | delegation proof =>
      show 2 * proof.weight < 2 * dlg.weight
      exact Nat.mul_lt_mul_of_pos_left lighter (by omega)
    | revocation rev =>
      have refers' : delegation rev.payload.revoke ∈ (revocation rev).afterAuth := by simp [afterAuth]
      have revoked : rev.payload.revoke.weight < rev.weight := weight_lt refers'
      have : rev.weight < dlg.weight := lighter
      show 2 * rev.payload.revoke.weight + 1 < 2 * dlg.weight
      omega
  | revocation rev =>
    have notHeavier {proof : SignedDelegation T}
        (at_or_above : proof ∈ rev.payload.revoke :: rev.payload.revoke.proofLineage) :
        2 * proof.weight < 2 * rev.payload.revoke.weight + 1 := by
      rcases List.mem_cons.mp at_or_above with rfl | further
      · omega
      · have : proof.weight ≤ rev.payload.revoke.weight := (reaches_of_mem_proofLineage further).weight_le
        omega
    rcases List.mem_cons.mp refers with rfl | given
    · exact notHeavier List.mem_cons_self
    · obtain ⟨proof, listed, rfl⟩ := List.mem_map.mp given
      exact notHeavier (above proof (Option.mem_toList.mp listed))

/-- A delegation stands above the revocations of its proof. -/
theorem standing_lt_of_revokes {dlg : SignedDelegation T} {rev : SignedRevocation T}
    (proof : dlg.payload.proof = some rev.payload.revoke) : (revocation rev).standing < (delegation dlg).standing := by
  have refers : delegation rev.payload.revoke ∈ (delegation dlg).afterAuth := by simp [afterAuth, proof]
  have lighter : rev.payload.revoke.weight < dlg.weight := weight_lt refers
  show 2 * rev.payload.revoke.weight + 1 < 2 * dlg.weight
  omega

end MembershipOperation

namespace GroupState

variable [DecidableEq T] {ops : List (MembershipOperation T)} {state : GroupState T}
  {admits : List (MembershipOperation T) → GroupState T → MembershipOperation T → Prop}

theorem Grown.proofAbove (grown : Grown hash admits ops state) (identified : Identified hash ops) :
    ∀ op ∈ ops, op.ProofAbove := by
  induction grown with
  | start nonempty roots =>
    intro op listed
    obtain ⟨dlg, -, rfl⟩ := List.mem_map.mp listed
    trivial
  | @add ops state state' stores stores' order op digest grown known meets accepted ih =>
    intro other listed
    rcases List.mem_append.mp listed with old | new
    · exact ih identified.left other old
    · obtain rfl := List.mem_singleton.mp new
      cases other with
      | delegation dlg => trivial
      | revocation rev =>
        exact fun proof given => proof_above_revoked (add_ok hash accepted).1 identified.signature
          (closed_append grown.closed known) listed given

end GroupState

/-! ### Draining what was explored -/

namespace Explored

variable {explored : Explored T} {reachable : MembershipOperation T → Prop} {ops : List (MembershipOperation T)}

/-- What is known of the operations that were met: they belong to a group. -/
structure Belongs (hash : MembershipOperation T → MembershipDigest) (ops : List (MembershipOperation T))
    (reachable : MembershipOperation T → Prop) : Prop where
  member : ∀ op, reachable op → op ∈ ops
  closed : ∀ op, reachable op → ∀ before ∈ op.afterAuth, reachable before
  proofAbove : ∀ op ∈ ops, op.ProofAbove
  identified : GroupState.Identified hash ops

theorem Exact.eq_of_hash (exact : explored.Exact hash reachable) {first second : MembershipOperation T}
    (one : reachable first) (two : reachable second) (same : hash first = hash second) : first = second := by
  have found := (exact.met first).mpr one
  have found' := (exact.met second).mpr two
  rw [Met, same, found'] at found
  exact (congrArg Prod.fst (Option.some.inj found)).symm

theorem Exact.mem_toList (exact : explored.Exact hash reachable)
    {entry : MembershipDigest × MembershipOperation T × List MembershipDigest} (listed : entry ∈ explored.allOps.toList) :
    entry = (hash entry.2.1, entry.2.1, entry.2.1.afterAuth.map hash) ∧ reachable entry.2.1 := by
  obtain ⟨digest, parents, found⟩ :=
    exact.keyed entry.1 entry.2 (ExtTreeMap.mem_toList_iff_getElem?_eq_some.mp listed)
  exact ⟨Prod.ext digest (Prod.ext rfl parents), found⟩

/-- The revocation of its proof that a delegation is sorted before revokes that proof. -/
theorem Exact.revokes (exact : explored.Exact hash reachable) (belongs : Belongs hash ops reachable)
    {dlg : SignedDelegation T} (found : reachable (.delegation dlg)) {digest : MembershipDigest}
    (noted : explored.revocationOfProof (.delegation dlg) = some digest) :
    ∃ rev, reachable (.revocation rev) ∧ digest = hash (.revocation rev) ∧
      dlg.payload.proof = some rev.payload.revoke := by
  simp only [revocationOfProof, Option.bind_eq_bind, Option.bind_eq_some_iff] at noted
  obtain ⟨proof, given, revoked, looked, -, -, same⟩ := noted
  obtain rfl := Option.some.inj same
  obtain ⟨rev, there, rfl, signature⟩ := exact.revoked _ _ looked
  have proofThere : reachable (.delegation proof) :=
    belongs.closed _ found _ (by simp [MembershipOperation.afterAuth, given])
  have revokeThere : reachable (.delegation rev.payload.revoke) :=
    belongs.closed _ there _ (by simp [MembershipOperation.afterAuth])
  have one := belongs.identified.signature _ (belongs.member _ proofThere) _ (belongs.member _ revokeThere) signature
  exact ⟨rev, there, rfl, given.trans (congrArg some (MembershipOperation.delegation.inj one))⟩

theorem Exact.mem_before (exact : explored.Exact hash reachable) {op : MembershipOperation T}
    {x y : MembershipDigest} (before : y ∈ explored.graph.before x) (here : reachable op) (digest : y = hash op) :
    x ∈ op.afterAuth.map hash ∨ explored.revocationOfProof op = some x := by
  obtain ⟨entry, listed, rfl, after⟩ := before
  obtain ⟨shape, found⟩ := exact.mem_toList listed
  obtain rfl : entry.2.1 = op := exact.eq_of_hash found here ((congrArg Prod.fst shape).symm.trans digest)
  rcases List.mem_append.mp after with parent | revoked
  · refine .inl ?_
    have parents : entry.2.2 = entry.2.1.afterAuth.map hash := congrArg (fun entry => entry.2.2) shape
    rw [← parents]
    exact (List.mem_filter.mp parent).1
  · exact .inr (Option.mem_toList.mp revoked)

theorem Exact.before_of_refers (exact : explored.Exact hash reachable) (belongs : Belongs hash ops reachable)
    {op before : MembershipOperation T} (here : reachable op) (refers : before ∈ op.afterAuth) :
    hash op ∈ explored.graph.before (hash before) := by
  have present : explored.allOps.contains (hash before) = true := ExtTreeMap.contains_iff_mem.mpr
    (mem_iff_exists.mpr ⟨_, (exact.met before).mpr (belongs.closed op here before refers)⟩)
  refine ⟨(hash op, op, op.afterAuth.map hash),
    ExtTreeMap.mem_toList_iff_getElem?_eq_some.mpr ((exact.met op).mpr here), rfl, List.mem_append_left _ ?_⟩
  exact List.mem_filter.mpr ⟨List.mem_map_of_mem refers, present⟩

/-- The number under a digest that grows along the edges of the graph. -/
def height (ops : List (MembershipOperation T)) (explored : Explored T) (digest : MembershipDigest) : Nat :=
  (ops.map MembershipOperation.standing).sum -
    ((explored.allOps[digest]?).map fun entry => entry.1.standing).getD 0

theorem Exact.leaves (exact : explored.Exact hash reachable) (belongs : Belongs hash ops reachable) :
    Leaves explored explored.graph (height ops explored) [] explored.adjacencies.sort where
  holds := by
    have nothing : {x : MembershipDigest | x ∈ ([] : List MembershipDigest)} = ∅ := by simp
    rw [nothing]
    exact adjacencies_hold
  cleared := fun x given => (List.not_mem_nil given).elim
  nodes := rfl
  keeps := fun x y before => before
  within := by
    rintro x y ⟨entry, listed, rfl, -⟩
    exact mem_of_mem_toList listed
  ranked := by
    intro x y _ _ before
    have isBefore := before
    obtain ⟨entry, listed, rfl, after⟩ := before
    obtain ⟨shape, found⟩ := exact.mem_toList listed
    have digest : entry.1 = hash entry.2.1 := congrArg Prod.fst shape
    have bounded : entry.2.1.standing ≤ (ops.map MembershipOperation.standing).sum :=
      List.single_le_sum (fun _ _ => Nat.zero_le _) _ (List.mem_map_of_mem (belongs.member _ found))
    have standing {op : MembershipOperation T} (there : reachable op) :
        height ops explored (hash op) = (ops.map MembershipOperation.standing).sum - op.standing := by
      rw [height, (exact.met op).mpr there]
      rfl
    have lower {op : MembershipOperation T} (there : reachable op) (below : op.standing < entry.2.1.standing) :
        height ops explored entry.1 < height ops explored (hash op) := by
      rw [digest, standing found, standing there]
      omega
    rcases exact.mem_before isBefore found digest with parent | revoked
    · obtain ⟨op, refers, rfl⟩ := List.mem_map.mp parent
      exact lower (belongs.closed _ found _ refers)
        (MembershipOperation.standing_lt (belongs.proofAbove _ (belongs.member _ found)) refers)
    · cases kind : entry.2.1 with
      | revocation rev => simp [kind, revocationOfProof] at revoked
      | delegation dlg =>
        rw [kind] at revoked found
        obtain ⟨rev, there, rfl, proof⟩ := exact.revokes belongs found revoked
        exact lower there (kind ▸ MembershipOperation.standing_lt_of_revokes proof)
  ordered := ⟨List.nodup_nil, by simp, by simp⟩
  listed := by simp

end Explored

/-! ### Linearisations -/

/-- One value stands at a lower index than another. -/
def Precedes {α : Type} (sorted : List α) (first second : α) : Prop :=
  ∃ i j : Nat, i < j ∧ sorted[i]? = some first ∧ sorted[j]? = some second

/-- **Every reachable operation stands in the list once, and before what it refers to.** -/
structure Sorts (reachable : MembershipOperation T → Prop) (sorted : List (MembershipOperation T)) : Prop where
  complete : ∀ op, op ∈ sorted ↔ reachable op
  once : sorted.Nodup
  parents : ∀ op, reachable op → ∀ parent ∈ op.afterAuth, Precedes sorted op parent

/-- **A complete linearisation:** moreover, delegations stand before every revocation of their proof. -/
structure Linearises (reachable : MembershipOperation T → Prop) (sorted : List (MembershipOperation T)) : Prop
    extends Sorts reachable sorted where
  revoked : ∀ dlg rev, reachable (.delegation dlg) → reachable (.revocation rev) →
    dlg.payload.proof = some rev.payload.revoke → Precedes sorted (.delegation dlg) (.revocation rev)

theorem Precedes.trans {α : Type} {sorted : List α} (once : sorted.Nodup) {first second third : α}
    (one : Precedes sorted first second) (two : Precedes sorted second third) : Precedes sorted first third := by
  obtain ⟨i, j, less, atI, atJ⟩ := one
  obtain ⟨j', k, less', atJ', atK⟩ := two
  obtain ⟨bound, -⟩ := List.getElem?_eq_some_iff.mp atJ
  obtain rfl : j = j' := (List.getElem?_inj bound once).mp (atJ.trans atJ'.symm)
  exact ⟨i, k, less.trans less', atI, atK⟩

theorem Sorts.of_reaches {reachable : MembershipOperation T → Prop} {sorted : List (MembershipOperation T)}
    (sorts : Sorts reachable sorted) {op other : MembershipOperation T} (here : reachable op)
    (reaches : op.Reaches other) : other = op ∨ (reachable other ∧ Precedes sorted op other) := by
  induction reaches with
  | refl => exact .inl rfl
  | @tail middle last _ refers ih =>
    have middleThere : reachable middle := by
      rcases ih with rfl | ⟨there, -⟩
      · exact here
      · exact there
    have step := sorts.parents _ middleThere _ refers
    obtain ⟨_, _, _, _, found⟩ := step
    refine .inr ⟨(sorts.complete _).mp (List.mem_of_getElem? found), ?_⟩
    rcases ih with rfl | ⟨-, earlier⟩
    · exact sorts.parents _ here _ refers
    · exact earlier.trans sorts.once (sorts.parents _ middleThere _ refers)

namespace Explored

variable {explored : Explored T} {reachable : MembershipOperation T → Prop} {ops : List (MembershipOperation T)}

/-- The operations in the order in which they are given out. -/
def sortedOps (explored : Explored T) : List (MembershipOperation T) :=
  explored.dependencies.filterMap fun digest => (explored.allOps[digest]?).map Prod.fst

theorem Exact.map_sortedOps (exact : explored.Exact hash reachable) (belongs : Belongs hash ops reachable) :
    explored.sortedOps.map hash = explored.dependencies := by
  have all : ∀ digest ∈ explored.dependencies, digest ∈ explored.allOps := fun digest listed =>
    ((exact.leaves belongs).drain _ (Nat.le_refl _)).2 digest |>.mp listed
  rw [sortedOps]
  generalize explored.dependencies = dependencies at all
  induction dependencies with
  | nil => rfl
  | cons digest rest ih =>
    obtain ⟨entry, found⟩ := mem_iff_exists.mp (all digest List.mem_cons_self)
    rw [List.filterMap_cons_some (by rw [found]; rfl), List.map_cons,
      ih fun digest listed => all digest (List.mem_cons_of_mem _ listed), ← (exact.keyed _ _ found).1]

theorem Exact.mem_sortedOps (exact : explored.Exact hash reachable) (belongs : Belongs hash ops reachable)
    (op : MembershipOperation T) : op ∈ explored.sortedOps ↔ reachable op := by
  constructor
  · intro listed
    obtain ⟨digest, -, found⟩ := List.mem_filterMap.mp listed
    obtain ⟨entry, looked, rfl⟩ := Option.map_eq_some_iff.mp found
    exact (exact.keyed _ _ looked).2.2
  · intro there
    have met := (exact.met op).mpr there
    refine List.mem_filterMap.mpr ⟨hash op, ?_, by rw [met]; rfl⟩
    exact (((exact.leaves belongs).drain _ (Nat.le_refl _)).2 _).mpr (mem_iff_exists.mpr ⟨_, met⟩)

/-- What comes before a node of the graph stands before it in the list. -/
theorem Exact.precedes (exact : explored.Exact hash reachable) (belongs : Belongs hash ops reachable)
    {first second : MembershipOperation T} (one : reachable first) (two : reachable second)
    (before : hash first ∈ explored.graph.before (hash second)) : Precedes explored.sortedOps first second := by
  have drained := (exact.leaves belongs).drain _ (Nat.le_refl _)
  have there : hash second ∈ explored.dependencies :=
    (drained.2 _).mpr (mem_iff_exists.mpr ⟨_, (exact.met second).mpr two⟩)
  obtain ⟨i, j, less, atI, atJ⟩ := drained.1.index_lt there before
  have lift {op : MembershipOperation T} {k : Nat} (here : reachable op)
      (found : explored.dependencies[k]? = some (hash op)) : explored.sortedOps[k]? = some op := by
    rw [← exact.map_sortedOps belongs, List.getElem?_map, Option.map_eq_some_iff] at found
    obtain ⟨other, listed, same⟩ := found
    rw [listed, exact.eq_of_hash ((exact.mem_sortedOps belongs other).mp (List.mem_of_getElem? listed)) here same]
  exact ⟨i, j, less, lift one atI, lift two atJ⟩

theorem Exact.sorts (exact : explored.Exact hash reachable) (belongs : Belongs hash ops reachable) :
    Sorts reachable explored.sortedOps where
  complete := exact.mem_sortedOps belongs
  once := by
    refine List.Nodup.of_map hash ?_
    rw [exact.map_sortedOps belongs]
    exact ((exact.leaves belongs).drain _ (Nat.le_refl _)).1.nodup
  parents op here parent refers :=
    exact.precedes belongs here (belongs.closed op here parent refers) (exact.before_of_refers belongs here refers)

/-- A delegation whose proof is revoked stands before one of the revocations. -/
theorem Exact.exists_revocation (exact : explored.Exact hash reachable) (belongs : Belongs hash ops reachable)
    {dlg : SignedDelegation T} {rev : SignedRevocation T} (here : reachable (.delegation dlg))
    (there : reachable (.revocation rev)) (proof : dlg.payload.proof = some rev.payload.revoke) :
    ∃ noted, reachable (.revocation noted) ∧ dlg.payload.proof = some noted.payload.revoke ∧
      Precedes explored.sortedOps (.delegation dlg) (.revocation noted) := by
  obtain ⟨digest, looked⟩ := mem_iff_exists.mp (exact.noted rev there)
  obtain ⟨other, otherThere, rfl, -⟩ := exact.revoked _ _ looked
  have present : explored.allOps.contains (hash (.revocation other)) = true := ExtTreeMap.contains_iff_mem.mpr
    (mem_iff_exists.mpr ⟨_, (exact.met _).mpr otherThere⟩)
  have noted : explored.revocationOfProof (.delegation dlg) = some (hash (.revocation other)) := by
    simp [revocationOfProof, proof, looked, ExtTreeMap.contains_iff_mem.mp present]
  obtain ⟨noted', there', same, proof'⟩ := exact.revokes belongs here noted
  refine ⟨noted', there', proof', exact.precedes belongs here there' ?_⟩
  refine ⟨(hash (.delegation dlg), .delegation dlg, (MembershipOperation.delegation dlg).afterAuth.map hash),
    ExtTreeMap.mem_toList_iff_getElem?_eq_some.mpr ((exact.met _).mpr here), rfl, List.mem_append_right _ ?_⟩
  exact Option.mem_toList.mpr (noted.trans (congrArg some same))

end Explored

/-! ### The order of a group -/

namespace GroupState

variable [DecidableEq T] {ops : List (MembershipOperation T)} {state : GroupState T}
  {admits : List (MembershipOperation T) → GroupState T → MembershipOperation T → Prop}

/-- The operations of a group in the order of `reverse_topsort`. -/
def sortedOps (hash : MembershipOperation T → MembershipDigest) (order : HashOrder T) (state : GroupState T) :
    List (MembershipOperation T) :=
  (reverseTopsort hash order state.delegationHeads state.revocationHeads).map Prod.snd

theorem sortedOps_eq (order : HashOrder T) (state : GroupState T) : state.sortedOps hash order =
    (exploreHeads hash order state.delegationHeads state.revocationHeads).sortedOps := by
  rw [sortedOps, reverseTopsort, Explored.sortedOps, List.map_filterMap]
  congr 1
  funext digest
  rw [Option.map_map]
  rfl

theorem Grown.belongs (grown : Grown hash admits ops state) (identified : Identified hash ops) :
    Explored.Belongs hash ops state.Finds where
  member op finds := by
    obtain ⟨head, isHead, above⟩ := finds
    exact above.mem grown.closed (grown.within head isHead)
  closed op finds before refers := finds.trans (.single refers)
  proofAbove := grown.proofAbove identified
  identified := identified

/-- **Everything that the heads reach is given out, once, and before what it refers to.** -/
theorem Grown.sorts (grown : Grown hash admits ops state) (identified : Identified hash ops) (order : HashOrder T) :
    Sorts state.Finds (state.sortedOps hash order) := by
  rw [sortedOps_eq]
  exact (exploreHeads_exact grown.within grown.closed identified order).sorts (grown.belongs identified)

/-- Where the proof of a delegation has several revocations, the delegation refers to them. -/
def Acknowledged (state : GroupState T) : Prop :=
  ∀ dlg rev other, state.Finds (.delegation dlg) → state.Finds (.revocation rev) → state.Finds (.revocation other) →
    dlg.payload.proof = some rev.payload.revoke → dlg.payload.proof = some other.payload.revoke →
    rev = other ∨ (MembershipOperation.delegation dlg).Reaches (.revocation rev)

/-- **`reverse_topsort` is a linearisation — complete in every state, and with the delegations before the revocations
of their proofs where these are acknowledged.** -/
theorem linearises_of_acknowledged (grown : Grown hash admits ops state) (identified : Identified hash ops)
    (order : HashOrder T) :
    Sorts state.Finds (state.sortedOps hash order) ∧
      (state.Acknowledged → Linearises state.Finds (state.sortedOps hash order)) := by
  have sorts := grown.sorts identified order
  refine ⟨sorts, fun acknowledged => ⟨sorts, fun dlg rev here there proof => ?_⟩⟩
  obtain ⟨noted, found, proof', precedes⟩ :=
    (exploreHeads_exact grown.within grown.closed identified order).exists_revocation (grown.belongs identified)
      here there proof
  rw [← sortedOps_eq] at precedes
  rcases acknowledged dlg rev noted here there found proof proof' with rfl | reaches
  · exact precedes
  · rcases sorts.of_reaches here reaches with same | ⟨-, earlier⟩
    · exact nomatch same
    · exact earlier

end GroupState

end

namespace Sample

open GroupState

/-- The editor is taken back, and what they delegated comes out before that. -/
theorem sorted_before_the_revocation :
    ∃ group, run .sorted admin [.delegation editor, .delegation subeditor, revokeEditor] = .ok group ∧
      Linearises group.state.Finds (group.state.sortedOps hash .sorted) := by
  obtain ⟨group, ran, -⟩ := group_of_view (by decide +kernel :
    (run .sorted admin [.delegation editor, .delegation subeditor, revokeEditor]).map summary
      = .ok ([(1, [10]), (3, [12])], [21]))
  have inOrder : InOrder [.delegation admin] [.delegation editor, .delegation subeditor, revokeEditor] := by
    simp [InOrder, MembershipOperation.afterAuth, editor, subeditor, admin, delegation, revokeEditor, revocation]
  have grown := (grown_of_run inOrder ran).state
  have identified : Identified hash
      [.delegation admin, .delegation editor, .delegation subeditor, revokeEditor] :=
    identified_of_nodup (by decide +kernel) (by decide +kernel)
  refine ⟨group, ran, (linearises_of_acknowledged grown identified .sorted).2 ?_⟩
  intro dlg rev other _ found found' _ _
  have member := (grown.belongs identified).member _ found
  have member' := (grown.belongs identified).member _ found'
  simp [revokeEditor] at member member'
  exact .inl (member.trans member'.symm)

/-- The signatures of the operations in their order. -/
def orderOf (order : HashOrder Unit) (group : Group Unit) : List Nat :=
  (group.state.sortedOps hash order).map fun op => op.signature.toNat

/-- **A revocation comes out before a delegation whose proof it revokes.** The editor is taken back twice. The
subeditor's delegation is sorted before the second revocation, and comes out after the first. -/
theorem revoked_proof_sorted_first :
    ∃ (ops : List (MembershipOperation Unit)) (state : GroupState Unit),
      GroupState.Grown hash (fun _ _ _ => True) ops state ∧ Identified hash ops ∧
      ¬ Linearises state.Finds (state.sortedOps hash .reversed) := by
  obtain ⟨group, ran, shown⟩ := group_of_view (by decide +kernel :
    (run .reversed admin takenBackTwice).map (orderOf .reversed) = .ok [13, 21, 12, 22, 14, 23, 11, 10])
  have grown := (grown_of_run takenBackTwice_inOrder ran).state
  have identified : Identified hash (.delegation admin :: takenBackTwice) :=
    identified_of_nodup (by decide +kernel) (by decide +kernel)
  have sorts := grown.sorts identified .reversed
  have listed {op : MembershipOperation Unit} (member : op ∈ .delegation admin :: takenBackTwice)
      (taken : op.signature.toNat ∈ orderOf .reversed group) : group.state.Finds op := by
    obtain ⟨other, there, same⟩ := List.mem_map.mp taken
    have found := (sorts.complete other).mp there
    rwa [identified.signature _ member _ ((grown.belongs identified).member _ found)
      (BitVec.eq_of_toNat_eq same.symm)]
  have indices : ∀ i < 8, ∀ j < 8, [13, 21, 12, 22, 14, 23, 11, 10][i]? = some 12 →
      [13, 21, 12, 22, 14, 23, 11, 10][j]? = some 21 → ¬ i < j := by decide
  refine ⟨_, group.state, grown, identified, fun linearises => ?_⟩
  obtain ⟨i, j, less, atI, atJ⟩ := linearises.revoked subeditor (revocation 21 1 editor (some editor))
    (listed (by simp [takenBackTwice]) (by rw [shown]; decide +kernel))
    (listed (by simp [takenBackTwice]) (by rw [shown]; decide +kernel)) rfl
  have shownAt {k number : Nat} {op : MembershipOperation Unit}
      (found : (group.state.sortedOps hash .reversed)[k]? = some op) (numbered : op.signature.toNat = number) :
      [13, 21, 12, 22, 14, 23, 11, 10][k]? = some number := by
    rw [← shown, orderOf, List.getElem?_map, found, ← numbered]
    rfl
  have first : _ = some 12 := shownAt atI (by decide +kernel)
  have second : _ = some 21 := shownAt atJ (by decide +kernel)
  exact indices i (List.getElem?_eq_some_iff.mp first).1 j (List.getElem?_eq_some_iff.mp second).1 first second less

end Sample

end KeyhiveEval.Core
