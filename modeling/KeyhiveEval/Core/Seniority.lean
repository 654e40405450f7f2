/-
**The order among revocations of one frontier.**

A frontier with several revocations gives out the most senior of them and puts the others back, each before the one
that it follows. So the second frontier has the least senior of them, and gives it out unless a more senior
revocation has become ready in the meantime.

* `rounds` — the sort and what was given out, round by round.
* `Explored.Exact.precedes_of_round` — what was given out by a round stands before what was not.
* **`GroupState.seniority_of_frontier`** — one or two revocations of a frontier come out by seniority; three or more do
  not, if the next frontier goes on with them.
-/

import KeyhiveEval.Core.Linearisation

namespace KeyhiveEval.Core

open Std Beekem OrderedSets TopologicalSort

section

variable {T : Type} {hash : MembershipOperation T → MembershipDigest}

/-! ### Seniority is a linear order -/

section Seniority

variable (allOps : AllOps T)

instance : Std.Total (seniorTo allOps) where
  total first second := by
    rcases Nat.lt_trichotomy (distanceToRoot allOps first) (distanceToRoot allOps second) with less | same | more
    · exact .inl (.inl less)
    · cases compared : (compare first second).isLE with
      | true => exact .inl (.inr ⟨same, compared⟩)
      | false =>
        refine .inr (.inr ⟨same.symm, ?_⟩)
        rw [show compare second first = (compare first second).swap from OrientedCmp.eq_swap]
        cases order : compare first second <;> simp_all
    · exact .inr (.inl more)

instance : IsTrans MembershipDigest (seniorTo allOps) where
  trans first second third := by
    rintro (less | ⟨same, one⟩) (less' | ⟨same', two⟩)
    · exact .inl (less.trans less')
    · exact .inl (same' ▸ less)
    · exact .inl (same ▸ less')
    · exact .inr ⟨same.trans same', TransCmp.isLE_trans one two⟩

theorem seniorTo_antisymm {first second : MembershipDigest} (one : seniorTo allOps first second)
    (two : seniorTo allOps second first) : first = second := by
  have le : (compare first second).isLE ∧ (compare second first).isLE := by
    rcases one with less | ⟨same, le⟩ <;> rcases two with less' | ⟨same', le'⟩
    · omega
    · omega
    · omega
    · exact ⟨le, le'⟩
  exact LawfulEqCmp.compare_eq_iff_eq.mp (OrientedCmp.isLE_antisymm le.1 le.2)

theorem Frontier.sorted_revocations (sort : Topsort) : (revocations allOps sort).Pairwise (seniorTo allOps) :=
  List.pairwise_insertionSort _ _

end Seniority

/-! ### Rounds -/

namespace Frontier

variable (allOps : AllOps T) (successorsOf : ExtTreeMap MembershipDigest (List MembershipDigest))

/-- One round: the sort that is left and what was given out. -/
def round (reached : Topsort × List MembershipDigest) : Topsort × List MembershipDigest :=
  (next allOps successorsOf reached.1, reached.2 ++ given allOps reached.1)

theorem ready_eq_nil_of_isEmpty {sort : Topsort} (empty : sort.isEmpty = true) : sort.ready = [] := by
  rw [TopologicalSort.isEmpty, ExtTreeMap.isEmpty_iff] at empty
  simp [TopologicalSort.ready, empty]

theorem round_of_none {reached : Topsort × List MembershipDigest} (none : reached.1.ready = []) :
    round allOps successorsOf reached = reached := by
  have noRevocations : revocations allOps reached.1 = [] := by simp [revocations, none]
  have noOthers : others allOps reached.1 = [] := by simp [others, none]
  rw [round, next, given, noRevocations, noOthers, TopologicalSort.popAll, none]
  simp

theorem drain_eq_iterate (fuel : Nat) (sort : Topsort) (out : List MembershipDigest) :
    drain allOps successorsOf fuel sort out = ((round allOps successorsOf)^[fuel] (sort, out)).2 := by
  induction fuel generalizing sort out with
  | zero => rfl
  | succ fuel ih =>
    rw [drain_succ]
    split
    · rename_i ended
      have none : sort.ready = [] := ended.elim ready_eq_nil_of_isEmpty id
      rw [Function.iterate_fixed (round_of_none allOps successorsOf none)]
    · rw [ih]
      rfl

end Frontier

open Frontier

/-- The sort and what was given out after some rounds. -/
def rounds (explored : Explored T) (k : Nat) : Topsort × List MembershipDigest :=
  (round explored.allOps explored.adjacencies.successorsOf)^[k] (explored.adjacencies.sort, [])

section Rounds

variable {explored : Explored T} {reachable : MembershipOperation T → Prop} {ops : List (MembershipOperation T)}

theorem rounds_succ (explored : Explored T) (k : Nat) : rounds explored (k + 1) =
    round explored.allOps explored.adjacencies.successorsOf (rounds explored k) := Function.iterate_succ_apply' _ _ _

theorem dependencies_eq_rounds (explored : Explored T) :
    explored.dependencies = (rounds explored (explored.allOps.size + 1)).2 := drain_eq_iterate _ _ _ _ _

theorem rounds_prefix (explored : Explored T) (k m : Nat) :
    (rounds explored k).2 <+: (rounds explored (k + m)).2 := by
  induction m with
  | zero => exact List.prefix_rfl
  | succ m ih =>
    rw [← Nat.add_assoc, rounds_succ]
    exact ih.trans (List.prefix_append _ _)

namespace Explored

theorem Exact.leaves_rounds (exact : explored.Exact hash reachable) (belongs : Belongs hash ops reachable) (k : Nat) :
    ∃ g rank, Leaves explored g rank (rounds explored k).2 (rounds explored k).1 := by
  induction k with
  | zero => exact ⟨_, _, exact.leaves belongs⟩
  | succ k ih =>
    obtain ⟨g, rank, leaves⟩ := ih
    rw [rounds_succ]
    exact leaves.next

theorem Exact.rounds_prefix_dependencies (exact : explored.Exact hash reachable)
    (belongs : Belongs hash ops reachable) (k : Nat) : (rounds explored k).2 <+: explored.dependencies := by
  rcases Nat.le_total k (explored.allOps.size + 1) with early | late
  · obtain ⟨m, count⟩ := Nat.exists_eq_add_of_le early
    rw [dependencies_eq_rounds, count]
    exact rounds_prefix explored k m
  · -- By then everything is given out, and nothing is given out twice.
    obtain ⟨m, rfl⟩ := Nat.exists_eq_add_of_le late
    obtain ⟨more, whole⟩ := rounds_prefix explored (explored.allOps.size + 1) m
    rw [← dependencies_eq_rounds] at whole
    obtain ⟨g, rank, leaves⟩ := exact.leaves_rounds belongs (explored.allOps.size + 1 + m)
    have once := leaves.ordered.nodup
    have listed := leaves.listed
    rw [← whole] at once listed ⊢
    obtain rfl : more = [] := by
      refine List.eq_nil_iff_forall_not_mem.mpr fun x new => ?_
      have old : x ∈ explored.dependencies := (((exact.leaves belongs).drain _ (Nat.le_refl _)).2 x).mpr
        (listed x (List.mem_append_right _ new))
      exact (List.nodup_append.mp once).2.2 x old x new rfl
    rw [List.append_nil]

/-- **What was given out by a round stands before what was not.** -/
theorem Exact.precedes_of_round (exact : explored.Exact hash reachable) (belongs : Belongs hash ops reachable)
    {k : Nat} {x y : MembershipDigest} (given : x ∈ (rounds explored k).2) (left : y ∉ (rounds explored k).2)
    (node : y ∈ explored.allOps) : Precedes explored.dependencies x y := by
  obtain ⟨rest, whole⟩ := exact.rounds_prefix_dependencies belongs k
  have listed : y ∈ explored.dependencies := (((exact.leaves belongs).drain _ (Nat.le_refl _)).2 y).mpr node
  rw [← whole] at listed ⊢
  have later := (List.mem_append.mp listed).resolve_left left
  obtain ⟨i, boundI, rfl⟩ := List.getElem_of_mem given
  obtain ⟨j, boundJ, rfl⟩ := List.getElem_of_mem later
  refine ⟨i, (rounds explored k).2.length + j, by omega, ?_, ?_⟩
  · rw [List.getElem?_append_left boundI, List.getElem?_eq_getElem boundI]
  · rw [List.getElem?_append_right (by omega), Nat.add_sub_cancel_left, List.getElem?_eq_getElem boundJ]

end Explored

end Rounds

theorem Precedes.asymm {α : Type} {sorted : List α} (once : sorted.Nodup) {first second : α}
    (one : Precedes sorted first second) : ¬ Precedes sorted second first := by
  intro two
  obtain ⟨i, j, less, atI, atJ⟩ := one.trans once two
  obtain ⟨bound, -⟩ := List.getElem?_eq_some_iff.mp atI
  have same := (List.getElem?_inj bound once).mp (atI.trans atJ.symm)
  omega

/-! ### Seniority -/

/-- Revocations come out by seniority: by their distance to the root, then by their digest. -/
def BySeniority (allOps : AllOps T) (revocations emitted : List MembershipDigest) : Prop :=
  ∀ first ∈ revocations, ∀ second ∈ revocations, first ≠ second → seniorTo allOps first second →
    Precedes emitted first second

namespace Explored

variable {explored : Explored T} {reachable : MembershipOperation T → Prop} {ops : List (MembershipOperation T)}

/-- The revocations that are ready in a round. -/
def concurrent (explored : Explored T) (k : Nat) : List MembershipDigest :=
  revocations explored.allOps (rounds explored k).1

section Concurrent

variable {k : Nat} {x : MembershipDigest}

theorem Exact.of_concurrent (exact : explored.Exact hash reachable) (belongs : Belongs hash ops reachable)
    (ready : x ∈ explored.concurrent k) : x ∈ explored.allOps ∧ x ∉ (rounds explored k).2 := by
  obtain ⟨g, rank, leaves⟩ := exact.leaves_rounds belongs k
  obtain ⟨node, left, -⟩ := (leaves.mem_ready x).mp ((mem_revocations _ _).mp ready).1
  rw [leaves.nodes] at node
  exact ⟨node, left⟩

/-- Of the revocations of a round, the first is given out. -/
theorem Exact.mem_next_round_iff (exact : explored.Exact hash reachable) (belongs : Belongs hash ops reachable)
    (ready : x ∈ explored.concurrent k) :
    x ∈ (rounds explored (k + 1)).2 ↔ (explored.concurrent k).head? = some x := by
  have left := (exact.of_concurrent belongs ready).2
  have distinct := nodup_revocations explored.allOps (rounds explored k).1
  rw [rounds_succ]
  show x ∈ (rounds explored k).2 ++ given _ _ ↔ _
  rw [List.mem_append, or_iff_right left, mem_given_iff, and_iff_right ((mem_revocations _ _).mp ready).1]
  unfold concurrent at ready ⊢
  cases list : revocations explored.allOps (rounds explored k).1 with
  | nil => simp [list] at ready
  | cons first rest =>
    rw [list] at ready distinct
    show x ∉ rest ↔ some first = some x
    rw [Option.some.injEq]
    constructor
    · exact fun out => ((List.mem_cons.mp ready).resolve_right out).symm
    · rintro rfl
      exact (List.nodup_cons.mp distinct).1

theorem Exact.not_mem_next_round (exact : explored.Exact hash reachable) (belongs : Belongs hash ops reachable)
    (isRevocation : isRevocationAt explored.allOps x = true) (left : x ∉ (rounds explored k).2)
    (notFirst : (explored.concurrent k).head? ≠ some x) : x ∉ (rounds explored (k + 1)).2 := by
  intro given
  by_cases ready : x ∈ explored.concurrent k
  · exact notFirst ((exact.mem_next_round_iff belongs ready).mp given)
  · rw [rounds_succ] at given
    have new := (List.mem_append.mp given).resolve_left left
    exact ready ((mem_revocations _ _).mpr ⟨((mem_given_iff _ _).mp new).1, isRevocation⟩)

end Concurrent

/-- Up to two revocations of one frontier come out by seniority. -/
theorem Exact.bySeniority (exact : explored.Exact hash reachable) (belongs : Belongs hash ops reachable) {k : Nat}
    (few : (explored.concurrent k).length ≤ 2) :
    BySeniority explored.allOps (explored.concurrent k) explored.dependencies := by
  intro first one second two apart senior
  have distinct := nodup_revocations explored.allOps (rounds explored k).1
  have sorted := sorted_revocations explored.allOps (rounds explored k).1
  have isFirst : (explored.concurrent k).head? = some first := by
    unfold concurrent at one two few ⊢
    match list : revocations explored.allOps (rounds explored k).1 with
    | [] => simp [list] at one
    | [only] =>
      rw [list, List.mem_singleton] at one two
      exact absurd (one.trans two.symm) apart
    | [a, b] =>
      rw [list, List.mem_pair] at one two
      rw [list, List.pairwise_pair] at sorted
      rcases one with rfl | rfl
      · rfl
      · rcases two with rfl | rfl
        · exact absurd (seniorTo_antisymm explored.allOps senior sorted) apart
        · exact absurd rfl apart
    | _ :: _ :: _ :: _ => simp [list] at few
  refine exact.precedes_of_round belongs ((exact.mem_next_round_iff belongs one).mpr isFirst) ?_
    (exact.of_concurrent belongs two).1
  rw [exact.mem_next_round_iff belongs two, isFirst]
  exact fun same => apart (Option.some.inj same)

/-- Three or more revocations of one frontier do not, if the next frontier goes on with the last of them. -/
theorem Exact.not_bySeniority (exact : explored.Exact hash reachable) (belongs : Belongs hash ops reachable) {k : Nat}
    (many : 3 ≤ (explored.concurrent k).length)
    (goesOn : (explored.concurrent (k + 1)).head? = (explored.concurrent k).getLast?) :
    ¬ BySeniority explored.allOps (explored.concurrent k) explored.dependencies := by
  intro bySeniority
  have distinct := nodup_revocations explored.allOps (rounds explored k).1
  have sorted := sorted_revocations explored.allOps (rounds explored k).1
  obtain ⟨first, second, rest, list⟩ : ∃ first second rest, explored.concurrent k = first :: second :: rest := by
    match explored.concurrent k, many with
    | first :: second :: rest, _ => exact ⟨first, second, rest, rfl⟩
  have nonempty : rest ≠ [] := by
    rintro rfl
    rw [list] at many
    exact absurd many (by simp)
  have final : (explored.concurrent k).getLast? = some (rest.getLast nonempty) := by
    rw [list, List.getLast?_cons_cons, List.getLast?_cons, List.getLast?_eq_some_getLast nonempty]
    rfl
  have lastReady : rest.getLast nonempty ∈ explored.concurrent k := by
    rw [list]
    exact List.mem_cons_of_mem _ (List.mem_cons_of_mem _ (List.getLast_mem nonempty))
  have secondReady : second ∈ explored.concurrent k := by simp [list]
  change (explored.concurrent k).Nodup at distinct
  change (explored.concurrent k).Pairwise _ at sorted
  rw [list] at distinct sorted
  have apart : second ≠ rest.getLast nonempty := fun same =>
    (List.nodup_cons.mp (List.nodup_cons.mp distinct).2).1 (same ▸ List.getLast_mem nonempty)
  have senior : seniorTo explored.allOps second (rest.getLast nonempty) :=
    List.rel_of_pairwise_cons (List.pairwise_cons.mp sorted).2 (List.getLast_mem nonempty)
  -- The last one is given out by the next round, and the second one is not.
  have given : rest.getLast nonempty ∈ (rounds explored (k + 2)).2 := by
    rw [final] at goesOn
    exact (exact.mem_next_round_iff belongs (List.mem_of_mem_head? goesOn)).mpr goesOn
  have left : second ∉ (rounds explored (k + 1)).2 := by
    rw [exact.mem_next_round_iff belongs secondReady, list]
    exact fun same => (List.nodup_cons.mp distinct).1 (Option.some.inj same ▸ List.mem_cons_self)
  have stays : second ∉ (rounds explored (k + 2)).2 := by
    refine exact.not_mem_next_round belongs ((mem_revocations _ _).mp secondReady).2 left ?_
    rw [goesOn, final]
    exact fun same => apart (Option.some.inj same).symm
  exact (exact.precedes_of_round belongs given stays (exact.of_concurrent belongs secondReady).1).asymm
    ((exact.leaves belongs).drain _ (Nat.le_refl _)).1.nodup
    (bySeniority second secondReady _ lastReady apart senior)

end Explored

namespace GroupState

variable [DecidableEq T] {ops : List (MembershipOperation T)} {state : GroupState T}
  {admits : List (MembershipOperation T) → GroupState T → MembershipOperation T → Prop}

/-- The digests in the order in which `reverse_topsort` gives them out. -/
def emitted (hash : MembershipOperation T → MembershipDigest) (order : HashOrder T) (state : GroupState T) :
    List MembershipDigest :=
  (reverseTopsort hash order state.delegationHeads state.revocationHeads).map Prod.fst

/-- What the walk from the heads of a group finds. -/
def explored (hash : MembershipOperation T → MembershipDigest) (order : HashOrder T) (state : GroupState T) :
    Explored T := exploreHeads hash order state.delegationHeads state.revocationHeads

theorem Grown.emitted_eq (grown : Grown hash admits ops state) (identified : Identified hash ops)
    (order : HashOrder T) : state.emitted hash order = (state.explored hash order).dependencies := by
  have exact := exploreHeads_exact grown.within grown.closed identified order
  have all (digest : MembershipDigest) (listed : digest ∈ (state.explored hash order).dependencies) :=
    (((exact.leaves (grown.belongs identified)).drain _ (Nat.le_refl _)).2 digest).mp listed
  rw [emitted, reverseTopsort, List.map_filterMap]
  refine (List.filterMap_congr fun digest listed => ?_).trans List.filterMap_some
  obtain ⟨entry, found⟩ := mem_iff_exists.mp (all digest listed)
  rw [found]
  rfl

/-- **Concurrent revocations come out by seniority — if there are at most two of them.** Of three or more that are
ready together, the least senior comes out second if the next frontier goes on with it. -/
theorem seniority_of_frontier (grown : Grown hash admits ops state) (identified : Identified hash ops)
    (order : HashOrder T) (k : Nat) :
    (((state.explored hash order).concurrent k).length ≤ 2 →
      BySeniority (state.explored hash order).allOps ((state.explored hash order).concurrent k)
        (state.emitted hash order)) ∧
    (3 ≤ ((state.explored hash order).concurrent k).length →
      ((state.explored hash order).concurrent (k + 1)).head? = ((state.explored hash order).concurrent k).getLast? →
      ¬ BySeniority (state.explored hash order).allOps ((state.explored hash order).concurrent k)
        (state.emitted hash order)) := by
  have exact := exploreHeads_exact grown.within grown.closed identified order
  rw [grown.emitted_eq identified order]
  exact ⟨exact.bySeniority (grown.belongs identified), exact.not_bySeniority (grown.belongs identified)⟩

end GroupState

end

namespace Sample

open GroupState

def thirdEditor : SignedDelegation Unit := delegation 15 1 6 .edit (some admin)

/-- The delegations of 1 are taken back one by one. -/
def takenBackTogether (count : Nat) : List (MembershipOperation Unit) :=
  [.delegation editor, .delegation coeditor, .delegation thirdEditor] ++
    [.revocation (revocation 21 1 editor (some editor)), .revocation (revocation 22 1 coeditor (some coeditor)),
      .revocation (revocation 23 1 thirdEditor (some thirdEditor))].take count

/-- The revocations that are ready in the first rounds, by their numbers. -/
def readyOf (order : HashOrder Unit) (group : Group Unit) : List Nat × List Nat :=
  (((group.state.explored hash order).concurrent 0).map fun digest => digest.raw.toNat,
    ((group.state.explored hash order).concurrent 1).map fun digest => digest.raw.toNat)

theorem takenBackTogether_inOrder {count : Nat} (few : count ≤ 3) :
    InOrder [.delegation admin] (takenBackTogether count) := by
  interval_cases count <;> simp [takenBackTogether, InOrder, MembershipOperation.afterAuth, editor, coeditor,
    thirdEditor, admin, delegation, revocation]

theorem two_by_seniority :
    ∃ group, run .sorted admin (takenBackTogether 2) = .ok group ∧
      ((group.state.explored hash .sorted).concurrent 0).length = 2 ∧
      BySeniority (group.state.explored hash .sorted).allOps ((group.state.explored hash .sorted).concurrent 0)
        (group.state.emitted hash .sorted) := by
  obtain ⟨group, ran, shown⟩ := group_of_view (by decide +kernel :
    (run .sorted admin (takenBackTogether 2)).map (readyOf .sorted) = .ok ([21, 22], [22]))
  have grown := (grown_of_run (takenBackTogether_inOrder (by omega)) ran).state
  have identified : Identified hash (.delegation admin :: takenBackTogether 2) :=
    identified_of_nodup (by decide +kernel) (by decide +kernel)
  have count : ((group.state.explored hash .sorted).concurrent 0).length = 2 := by
    simpa [readyOf] using congrArg (fun shown : List Nat × List Nat => shown.1.length) shown
  exact ⟨group, ran, count, (seniority_of_frontier grown identified .sorted 0).1 count.le⟩

/-- **Three concurrent revocations do not come out by seniority:** the third comes out before the second. -/
theorem three_not_by_seniority :
    ∃ (ops : List (MembershipOperation Unit)) (state : GroupState Unit),
      GroupState.Grown hash (fun _ _ _ => True) ops state ∧ Identified hash ops ∧
      ((state.explored hash .sorted).concurrent 0).length = 3 ∧
      ¬ BySeniority (state.explored hash .sorted).allOps ((state.explored hash .sorted).concurrent 0)
        (state.emitted hash .sorted) := by
  obtain ⟨group, ran, shown⟩ := group_of_view (by decide +kernel :
    (run .sorted admin (takenBackTogether 3)).map (readyOf .sorted) = .ok ([21, 22, 23], [23]))
  have grown := (grown_of_run (takenBackTogether_inOrder (by omega)) ran).state
  have identified : Identified hash (.delegation admin :: takenBackTogether 3) :=
    identified_of_nodup (by decide +kernel) (by decide +kernel)
  rw [readyOf, Prod.mk.injEq] at shown
  obtain ⟨first, next⟩ := shown
  have count : ((group.state.explored hash .sorted).concurrent 0).length = 3 := by
    rw [← List.length_map (fun digest : MembershipDigest => digest.raw.toNat), first]
    rfl
  have goesOn : ((group.state.explored hash .sorted).concurrent 1).head?
      = ((group.state.explored hash .sorted).concurrent 0).getLast? := by
    have told : Function.Injective fun digest : MembershipDigest => digest.raw.toNat := fun one two same =>
      congrArg Bytes32.mk (BitVec.eq_of_toNat_eq same)
    refine Option.map_injective told ?_
    rw [← List.head?_map, ← List.getLast?_map, first, next]
    rfl
  refine ⟨_, group.state, grown, identified, count, ?_⟩
  rw [grown.emitted_eq identified]
  exact (exploreHeads_exact grown.within grown.closed identified .sorted).not_bySeniority (grown.belongs identified)
    (by rw [show exploreHeads hash .sorted _ _ = group.state.explored hash .sorted from rfl, count]) goesOn

end Sample

end KeyhiveEval.Core
