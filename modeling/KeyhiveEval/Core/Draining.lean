/-
**What the drained sort gives out.**

The second half of `reverse_topsort` pops frontiers. A frontier gives out everything that is ready, but of the
revocations only the first: the others are put back with edges of their own, so the sort that is drained is never the
one that was built.

* `Explored.graph` — the graph that is drained: an operation comes before what it refers to, and a delegation before
  the revocation of its proof that the walk met last.
* `Leaves` — the invariant of the drain: the sort holds what is left of a graph with the same nodes, at least the same
  edges, and no circle.
* `Leaves.next`, **`Leaves.drain`** — a round of the drain keeps the invariant, and the drain gives out every node, once,
  and before what it comes before.
-/

import KeyhiveEval.Core.Convergence
import KeyhiveEval.Beekem.Popping

namespace KeyhiveEval.Core

open Std Beekem OrderedSets TopologicalSort

variable {T : Type}

/-! ### The graph that is drained -/

/-- The nodes and edges that were gathered. -/
structure Adjacencies.Has (node : MembershipDigest → Prop) (edge : MembershipDigest → MembershipDigest → Prop)
    (adj : Adjacencies) : Prop where
  nodes : ∀ x, x ∈ adj.sort.deps ↔ node x
  deps : ∀ x y, y ∈ adj.sort.deps.getD x ∅ ↔ edge y x
  rdeps : ∀ x y, y ∈ adj.sort.rdeps.getD x ∅ ↔ edge x y
  successors : ∀ x y, y ∈ adj.successorsOf.getD x [] ↔ edge x y

section Gathering

variable {node : MembershipDigest → Prop} {edge : MembershipDigest → MembershipDigest → Prop} {adj : Adjacencies}

theorem Adjacencies.Has.addNode (has : adj.Has node edge) (digest : MembershipDigest) :
    Adjacencies.Has (fun x => node x ∨ x = digest) edge { adj with sort := Topsort.addNode adj.sort digest } where
  nodes x := by
    show x ∈ orDefault adj.sort.deps digest ↔ _
    rw [mem_orDefault, has.nodes, or_comm]
  deps x y := by
    show y ∈ (orDefault adj.sort.deps digest).getD x ∅ ↔ _
    rw [getD_orDefault, has.deps]
  rdeps x y := by
    show y ∈ (orDefault adj.sort.rdeps digest).getD x ∅ ↔ _
    rw [getD_orDefault, has.rdeps]
  successors := has.successors

theorem Adjacencies.Has.addEdge (has : adj.Has node edge) (before after : MembershipDigest) :
    Adjacencies.Has (fun x => node x ∨ x = before ∨ x = after)
      (fun x y => edge x y ∨ (x = before ∧ y = after)) (adj.addEdge before after) where
  nodes x := by
    show x ∈ insertAt (orDefault adj.sort.deps before) after before ↔ _
    rw [mem_insertAt, mem_orDefault, has.nodes]
    tauto
  deps x y := by
    show y ∈ (insertAt (orDefault adj.sort.deps before) after before).getD x ∅ ↔ _
    rw [mem_getD_insertAt, getD_orDefault, has.deps]
    tauto
  rdeps x y := by
    show y ∈ (insertAt (orDefault adj.sort.rdeps after) before after).getD x ∅ ↔ _
    rw [mem_getD_insertAt, getD_orDefault, has.rdeps]
    tauto
  successors x y := by
    show y ∈ (adj.successorsOf.insert before (adj.successorsOf.getD before [] ++ [after])).getD x [] ↔ _
    rw [getD_insert_iff]
    split
    · rename_i same
      rw [List.mem_append, List.mem_singleton, ← same, has.successors]
      simp
    · rename_i apart
      rw [has.successors]
      simp [apart]

theorem Adjacencies.Has.addEdges (has : adj.Has node edge) (before : MembershipDigest)
    (successors : List MembershipDigest) :
    Adjacencies.Has (fun x => node x ∨ (successors ≠ [] ∧ x = before) ∨ x ∈ successors)
      (fun x y => edge x y ∨ (x = before ∧ y ∈ successors))
      (successors.foldl (fun adj after => adj.addEdge before after) adj) := by
  induction successors generalizing node edge adj with
  | nil => simpa using has
  | cons after successors ih =>
    have rest := ih (has.addEdge before after)
    refine ⟨fun x => (rest.nodes x).trans ?_, fun x y => (rest.deps x y).trans ?_,
      fun x y => (rest.rdeps x y).trans ?_, fun x y => (rest.successors x y).trans ?_⟩
    · simp only [List.mem_cons, ne_eq, reduceCtorEq, not_false_eq_true, true_and]
      tauto
    all_goals
      simp only [List.mem_cons]
      tauto

end Gathering

namespace Explored

variable (explored : Explored T)

/-- The nodes that an operation is given out before. -/
def successors (entry : MembershipDigest × MembershipOperation T × List MembershipDigest) : List MembershipDigest :=
  (entry.2.2.filter fun parent => explored.allOps.contains parent) ++
    (explored.revocationOfProof entry.2.1).toList

/-- The operations that were met, each after those that are to be given out before it. -/
def graph : Layering.Graph MembershipDigest where
  nodes := {x | x ∈ explored.allOps}
  before x := {y | ∃ entry ∈ explored.allOps.toList, y = entry.1 ∧ x ∈ explored.successors entry}

theorem addOp_eq_foldl (adj : Adjacencies)
    (entry : MembershipDigest × MembershipOperation T × List MembershipDigest) :
    explored.addOp adj entry = (explored.successors entry).foldl (fun adj after => adj.addEdge entry.1 after)
      { adj with sort := Topsort.addNode adj.sort entry.1 } := by
  rw [successors, List.foldl_append]
  rfl

theorem foldl_addOp_has (entries : List (MembershipDigest × MembershipOperation T × List MembershipDigest)) :
    (entries.foldl explored.addOp .empty).Has (fun x => ∃ entry ∈ entries, x = entry.1 ∨ x ∈ explored.successors entry)
      (fun x y => ∃ entry ∈ entries, x = entry.1 ∧ y ∈ explored.successors entry) := by
  induction entries using List.reverseRecOn with
  | nil => exact ⟨by simp [Adjacencies.empty, TopologicalSort.new], by simp [Adjacencies.empty, TopologicalSort.new],
      by simp [Adjacencies.empty, TopologicalSort.new], by simp [Adjacencies.empty]⟩
  | append_singleton entries entry ih =>
    rw [List.foldl_append, List.foldl_cons, List.foldl_nil, addOp_eq_foldl]
    have added := (ih.addNode entry.1).addEdges entry.1 (explored.successors entry)
    refine ⟨fun x => (added.nodes x).trans ?_, fun x y => (added.deps x y).trans ?_,
      fun x y => (added.rdeps x y).trans ?_, fun x y => (added.successors x y).trans ?_⟩
    · simp only [List.mem_append, List.mem_singleton, or_and_right, exists_or, exists_eq_left]
      generalize (∃ entry ∈ entries, x = entry.1 ∨ x ∈ explored.successors entry) = earlier
      tauto
    all_goals simp only [List.mem_append, List.mem_singleton, or_and_right, exists_or, exists_eq_left]

variable {explored}

theorem contains_of_revocationOfProof {op : MembershipOperation T} {digest : MembershipDigest}
    (found : explored.revocationOfProof op = some digest) : explored.allOps.contains digest = true := by
  cases op with
  | revocation rev => simp [revocationOfProof] at found
  | delegation dlg =>
    simp only [revocationOfProof, Option.bind_eq_bind, Option.bind_eq_some_iff] at found
    obtain ⟨proof, -, revoked, -, checked, present, same⟩ := found
    obtain rfl := Option.some.inj same
    by_contra absent
    simp [absent, guard] at present

variable {entry : MembershipDigest × MembershipOperation T × List MembershipDigest}

theorem mem_of_successors
    {x : MembershipDigest} (after : x ∈ explored.successors entry) : x ∈ explored.allOps := by
  rcases List.mem_append.mp after with parent | revoked
  · exact ExtTreeMap.contains_iff_mem.mp (List.mem_filter.mp parent).2
  · exact ExtTreeMap.contains_iff_mem.mp (contains_of_revocationOfProof (Option.mem_toList.mp revoked))

theorem mem_of_mem_toList
    (listed : entry ∈ explored.allOps.toList) : entry.1 ∈ explored.allOps :=
  mem_iff_exists.mpr ⟨entry.2, ExtTreeMap.mem_toList_iff_getElem?_eq_some.mp listed⟩

theorem adjacencies_hold : TopologicalSort.Holds explored.graph ∅ explored.adjacencies.sort := by
  have has := explored.foldl_addOp_has explored.allOps.toList
  refine ⟨fun x => (has.nodes x).trans ?_, fun x _ _ y => (has.deps x y).trans ?_,
    fun x _ _ y => (has.rdeps x y).trans ?_⟩
  · constructor
    · rintro ⟨entry, listed, rfl | after⟩
      · exact ⟨mem_of_mem_toList listed, id⟩
      · exact ⟨mem_of_successors after, id⟩
    · rintro ⟨present, -⟩
      obtain ⟨value, found⟩ := mem_iff_exists.mp present
      exact ⟨(x, value), ExtTreeMap.mem_toList_iff_getElem?_eq_some.mpr found, .inl rfl⟩
  · exact ⟨fun before => ⟨before, id⟩, And.left⟩
  · refine ⟨fun before => ⟨?_, before⟩, And.right⟩
    obtain ⟨entry, -, -, after⟩ := before
    exact mem_of_successors after

theorem mem_successorsOf (x y : MembershipDigest) :
    y ∈ explored.adjacencies.successorsOf.getD x [] ↔ x ∈ explored.graph.before y :=
  (explored.foldl_addOp_has explored.allOps.toList).successors x y

end Explored

/-! ### One frontier -/

namespace Frontier

variable (allOps : AllOps T) (successorsOf : ExtTreeMap MembershipDigest (List MembershipDigest)) (sort : Topsort)

def others : List MembershipDigest := sort.ready.filter fun digest => !isRevocationAt allOps digest

/-- The revocations that are ready, the most senior first. -/
def revocations : List MembershipDigest :=
  (sort.ready.filter fun digest => isRevocationAt allOps digest).insertionSort (seniorTo allOps)

def given : List MembershipDigest := others allOps sort ++ (revocations allOps sort).take 1

def next : Topsort :=
  if ((revocations allOps sort).drop 1).isEmpty then sort.popAll.2
  else putBack allOps successorsOf sort.popAll.2 ((revocations allOps sort).drop 1)

/-- What is left to do after the operations of a frontier that are no revocations. -/
def rest (fuel : Nat) (out : List MembershipDigest) : List MembershipDigest :=
  match revocations allOps sort with
  | [] => drain allOps successorsOf fuel sort.popAll.2 (out ++ others allOps sort)
  | first :: remaining => drain allOps successorsOf fuel
      (if remaining.isEmpty then sort.popAll.2 else putBack allOps successorsOf sort.popAll.2 remaining)
      (out ++ others allOps sort ++ [first])

theorem drain_succ (fuel : Nat) (out : List MembershipDigest) :
    drain allOps successorsOf (fuel + 1) sort out =
      if sort.isEmpty = true ∨ sort.ready = [] then out
      else drain allOps successorsOf fuel (next allOps successorsOf sort) (out ++ given allOps sort) := by
  rw [drain]
  by_cases empty : sort.isEmpty = true
  · rw [if_pos empty, if_pos (.inl empty)]
  · rw [if_neg empty]
    show (if sort.ready.isEmpty = true then out else _) = _
    by_cases none : sort.ready = []
    · rw [if_pos (List.isEmpty_iff.mpr none), if_pos (.inr none)]
    · rw [if_neg fun none' => none (List.isEmpty_iff.mp none'), if_neg fun one => one.elim empty none]
      show rest allOps successorsOf sort fuel out = _
      unfold rest next given
      cases revocations allOps sort with
      | nil => simp
      | cons first remaining => simp

variable {x : MembershipDigest}

theorem mem_others :
    x ∈ others allOps sort ↔ x ∈ sort.ready ∧ isRevocationAt allOps x = false := by
  rw [others, List.mem_filter, Bool.not_eq_true']

theorem mem_revocations :
    x ∈ revocations allOps sort ↔ x ∈ sort.ready ∧ isRevocationAt allOps x = true := by
  rw [revocations, List.mem_insertionSort, List.mem_filter]

theorem nodup_revocations : (revocations allOps sort).Nodup :=
  ((List.perm_insertionSort _ _).nodup_iff).mpr (sort.nodup_ready.filter _)

theorem nodup_given : (given allOps sort).Nodup := by
  refine List.nodup_append.mpr ⟨sort.nodup_ready.filter _,
    (nodup_revocations allOps sort).sublist (List.take_sublist 1 _), fun x other y first same => ?_⟩
  have isRevocation := ((mem_revocations allOps sort).mp (List.mem_of_mem_take first)).2
  rw [← same, ((mem_others allOps sort).mp other).2] at isRevocation
  exact Bool.noConfusion isRevocation

/-- What is ready is given out or put back, and not both. -/
theorem mem_given_iff :
    x ∈ given allOps sort ↔ x ∈ sort.ready ∧ x ∉ (revocations allOps sort).drop 1 := by
  have parted := nodup_revocations allOps sort
  rw [← List.take_append_drop 1 (revocations allOps sort), List.nodup_append] at parted
  have listed : x ∈ revocations allOps sort ↔
      x ∈ (revocations allOps sort).take 1 ∨ x ∈ (revocations allOps sort).drop 1 := by
    rw [← List.mem_append, List.take_append_drop]
  rw [given, List.mem_append, mem_others]
  constructor
  · rintro (⟨ready, other⟩ | first)
    · refine ⟨ready, fun later => ?_⟩
      have isRevocation := ((mem_revocations allOps sort).mp (listed.mpr (.inr later))).2
      rw [other] at isRevocation
      exact Bool.noConfusion isRevocation
    · exact ⟨((mem_revocations allOps sort).mp (listed.mpr (.inl first))).1,
        fun later => parted.2.2 x first x later rfl⟩
  · rintro ⟨ready, notLater⟩
    cases kind : isRevocationAt allOps x with
    | false => exact .inl ⟨ready, rfl⟩
    | true => exact .inr ((listed.mp ((mem_revocations allOps sort).mpr ⟨ready, kind⟩)).resolve_right notLater)

theorem given_ne_nil (some : sort.ready ≠ []) : given allOps sort ≠ [] := by
  intro none
  obtain ⟨x, ready⟩ := List.exists_mem_of_ne_nil _ some
  obtain ⟨noOthers, noFirst⟩ := List.append_eq_nil_iff.mp none
  have noRevocations : revocations allOps sort = [] := (List.take_eq_nil_iff.mp noFirst).resolve_left (by omega)
  have given : x ∈ given allOps sort := (mem_given_iff allOps sort).mpr ⟨ready, by simp [noRevocations]⟩
  rw [none] at given
  exact List.not_mem_nil given

end Frontier

/-! ### Putting revocations back -/

/-- Each revocation but the first comes before the one that it follows. -/
def chainEdges (revocations : List MembershipDigest) : List (MembershipDigest × MembershipDigest) :=
  (revocations.zip revocations.tail).map Prod.swap

/-- The edges from revocations that they had before. -/
def restoredEdges (allOps : AllOps T) (successorsOf : ExtTreeMap MembershipDigest (List MembershipDigest))
    (revocations : List MembershipDigest) : List (MembershipDigest × MembershipDigest) :=
  revocations.flatMap fun digest =>
    ((successorsOf.getD digest []).filter fun succ => allOps.contains succ).map fun succ => (digest, succ)

section PutBack

variable {allOps : AllOps T} {successorsOf : ExtTreeMap MembershipDigest (List MembershipDigest)} {sort : Topsort}
  {remaining : List MembershipDigest}

theorem putBack_eq : putBack allOps successorsOf sort remaining =
    (chain sort remaining).addEdges (restoredEdges allOps successorsOf remaining) := by
  rw [putBack]
  generalize chain sort remaining = start
  unfold restoredEdges TopologicalSort.addEdges
  induction remaining generalizing start with
  | nil => rfl
  | cons digest remaining ih =>
    rw [List.foldl_cons, ih, List.flatMap_cons, List.foldl_append, List.foldl_map]

theorem mem_restoredEdges {x y : MembershipDigest} :
    (x, y) ∈ restoredEdges allOps successorsOf remaining ↔
      x ∈ remaining ∧ y ∈ successorsOf.getD x [] ∧ y ∈ allOps := by
  simp only [restoredEdges, List.mem_flatMap, List.mem_map, List.mem_filter, Prod.mk.injEq,
    ExtTreeMap.contains_iff_mem]
  constructor
  · rintro ⟨digest, listed, succ, both, rfl, rfl⟩
    exact ⟨listed, both⟩
  · rintro ⟨listed, both⟩
    exact ⟨x, listed, y, both, rfl, rfl⟩

variable {edge : MembershipDigest × MembershipDigest}

theorem mem_of_chainEdges (listed : edge ∈ chainEdges remaining) :
    edge.1 ∈ remaining ∧ edge.2 ∈ remaining := by
  obtain ⟨pair, member, rfl⟩ := List.mem_map.mp listed
  exact ⟨List.mem_of_mem_tail (List.of_mem_zip member).2, (List.of_mem_zip member).1⟩

theorem idxOf_lt_of_chainEdges (distinct : remaining.Nodup)
    (listed : edge ∈ chainEdges remaining) : remaining.idxOf edge.2 < remaining.idxOf edge.1 := by
  obtain ⟨pair, member, rfl⟩ := List.mem_map.mp listed
  obtain ⟨i, bound, rfl⟩ := List.getElem_of_mem member
  simp only [List.length_zip, List.length_tail] at bound
  simp only [List.getElem_zip, List.getElem_tail, Prod.swap]
  rw [distinct.idxOf_getElem, distinct.idxOf_getElem]
  omega

/-- The nodes of a chain of two or more are those of its edges. -/
theorem exists_chainEdge {x : MembershipDigest} (listed : x ∈ remaining) (several : 2 ≤ remaining.length) :
    ∃ edge ∈ chainEdges remaining, x = edge.1 ∨ x = edge.2 := by
  obtain ⟨i, bound, rfl⟩ := List.getElem_of_mem listed
  have pairs : (remaining.zip remaining.tail).length = remaining.length - 1 := by simp
  by_cases last : i + 1 < remaining.length
  · refine ⟨((remaining.zip remaining.tail).get ⟨i, by omega⟩).swap, List.mem_map_of_mem (List.get_mem _ _),
      .inr ?_⟩
    simp
  · refine ⟨((remaining.zip remaining.tail).get ⟨i - 1, by omega⟩).swap, List.mem_map_of_mem (List.get_mem _ _),
      .inl ?_⟩
    have here : i - 1 + 1 = i := by omega
    simp [here]

/-- What revocations bring back into the sort. -/
theorem chain_has (sort : TopologicalSort MembershipDigest) (some : remaining ≠ []) :
    (∀ x, x ∈ (chain sort remaining).deps ↔ x ∈ sort.deps ∨ x ∈ remaining) ∧
    (∀ x y, y ∈ (chain sort remaining).deps.getD x ∅ ↔ y ∈ sort.deps.getD x ∅ ∨ (y, x) ∈ chainEdges remaining) ∧
    ∀ x y, y ∈ (chain sort remaining).rdeps.getD x ∅ ↔ y ∈ sort.rdeps.getD x ∅ ∨ (x, y) ∈ chainEdges remaining := by
  match remaining, some with
  | [only], _ =>
    refine ⟨fun x => ?_, fun x y => ?_, fun x y => ?_⟩
    · show x ∈ orDefault sort.deps only ↔ _
      rw [mem_orDefault, List.mem_singleton, or_comm]
    · show y ∈ (orDefault sort.deps only).getD x ∅ ↔ _
      simp [chainEdges]
    · show y ∈ (orDefault sort.rdeps only).getD x ∅ ↔ _
      simp [chainEdges]
  | first :: second :: rest, _ =>
    have edges : chain sort (first :: second :: rest) = sort.addEdges (chainEdges (first :: second :: rest)) := by
      unfold chain chainEdges TopologicalSort.addEdges
      rw [List.foldl_map]
      rfl
    rw [edges]
    refine ⟨fun x => mem_deps_addEdges.trans (or_congr_right ⟨?_, fun listed => exists_chainEdge listed (by simp)⟩),
      fun x y => mem_getD_deps_addEdges, fun x y => mem_getD_rdeps_addEdges⟩
    rintro ⟨edge, listed, rfl | rfl⟩
    · exact (mem_of_chainEdges listed).1
    · exact (mem_of_chainEdges listed).2

end PutBack

/-! ### The drain -/

/-- **What the drain has given out and left.** The sort holds what is left of a graph that has the nodes of the whole
and at least its edges. What is left has no circle, and what was given out is in order. -/
structure Leaves (explored : Explored T) (g : Layering.Graph MembershipDigest) (rank : MembershipDigest → Nat)
    (out : List MembershipDigest) (sort : Topsort) : Prop where
  holds : TopologicalSort.Holds g {x | x ∈ out} sort
  cleared : Cleared {x | x ∈ out} sort
  nodes : g.nodes = explored.graph.nodes
  keeps : ∀ x, explored.graph.before x ⊆ g.before x
  within : ∀ x, g.before x ⊆ g.nodes
  ranked : ∀ x y, x ∉ out → y ∉ out → y ∈ g.before x → rank y < rank x
  ordered : Layering.Ordered explored.graph ∅ out
  listed : ∀ x ∈ out, x ∈ explored.graph.nodes

namespace Leaves

open Frontier

variable {explored : Explored T} {g : Layering.Graph MembershipDigest} {rank : MembershipDigest → Nat}
  {out : List MembershipDigest} {sort : Topsort}

/-- The revocations that a frontier puts back. -/
abbrev later (explored : Explored T) (sort : Topsort) : List MembershipDigest :=
  (revocations explored.allOps sort).drop 1

/-- The edges that they are put back with. -/
abbrev edges (explored : Explored T) (sort : Topsort) : List (MembershipDigest × MembershipDigest) :=
  chainEdges (later explored sort) ++
    restoredEdges explored.allOps explored.adjacencies.successorsOf (later explored sort)

theorem mem_ready (leaves : Leaves explored g rank out sort) (x : MembershipDigest) :
    x ∈ sort.ready ↔ x ∈ g.nodes ∧ x ∉ out ∧ ∀ y ∈ g.before x, y ∈ out := leaves.holds.mem_ready x

variable {x : MembershipDigest}

/-- **Something is ready as long as something is left.** -/
theorem exists_ready (leaves : Leaves explored g rank out sort) (node : x ∈ g.nodes)
    (left : x ∉ out) : sort.ready ≠ [] := by
  obtain ⟨least, ⟨isNode, isLeft⟩, minimal⟩ :=
    (measure rank).wf.has_min {x | x ∈ g.nodes ∧ x ∉ out} ⟨x, node, left⟩
  refine List.ne_nil_of_mem ((leaves.mem_ready least).mpr ⟨isNode, isLeft, fun y before => ?_⟩)
  by_contra yLeft
  exact minimal y ⟨leaves.within least before, yLeft⟩ (leaves.ranked least y isLeft yLeft before)

theorem ordered_given (leaves : Leaves explored g rank out sort) :
    Layering.Ordered explored.graph ∅ (out ++ given explored.allOps sort) := by
  have ready {x : MembershipDigest} (here : x ∈ given explored.allOps sort) :=
    (leaves.mem_ready x).mp ((mem_given_iff explored.allOps sort).mp here).1
  exact leaves.ordered.append (nodup_given explored.allOps sort) (fun x here => ⟨id, (ready here).2.1⟩)
    fun x here p before => .inr ((ready here).2.2 p (leaves.keeps x before))

theorem listed_given (leaves : Leaves explored g rank out sort) :
    ∀ x ∈ out ++ given explored.allOps sort, x ∈ explored.graph.nodes := by
  intro x member
  rcases List.mem_append.mp member with old | new
  · exact leaves.listed x old
  · rw [← leaves.nodes]
    exact ((leaves.mem_ready x).mp ((mem_given_iff explored.allOps sort).mp new).1).1

theorem ready_of_later (back : x ∈ later explored sort) :
    x ∈ sort.ready ∧ isRevocationAt explored.allOps x = true :=
  (mem_revocations explored.allOps sort).mp (List.mem_of_mem_drop back)

/-- What is done once the later revocations are put back. -/
theorem without_later (leaves : Leaves explored g rank out sort) :
    without (Layering.after {x | x ∈ out} sort.ready) (later explored sort)
      = {x | x ∈ out ++ given explored.allOps sort} := by
  ext x
  show (x ∈ out ∨ x ∈ sort.ready) ∧ x ∉ later explored sort ↔ x ∈ out ++ given explored.allOps sort
  rw [List.mem_append, mem_given_iff]
  constructor
  · rintro ⟨old | ready, stays⟩
    · exact .inl old
    · exact .inr ⟨ready, stays⟩
  · rintro (old | ⟨ready, stays⟩)
    · exact ⟨.inl old, fun back => ((leaves.mem_ready x).mp (ready_of_later back).1).2.1 old⟩
    · exact ⟨.inr ready, stays⟩

variable {y : MembershipDigest}

/-- What comes after a node that is ready is left when the frontier is popped. -/
theorem left_of_before (leaves : Leaves explored g rank out sort) (ready : x ∈ sort.ready)
    (before : x ∈ explored.graph.before y) : y ∉ Layering.after {x | x ∈ out} sort.ready := by
  have fresh := ((leaves.mem_ready x).mp ready).2.1
  rintro (given | alsoReady)
  · obtain ⟨first, last, split⟩ := List.append_of_mem given
    have earlier := (leaves.ordered.earlier first y last split x before).resolve_left (Set.notMem_empty x)
    exact fresh (split ▸ List.mem_append_left _ earlier)
  · exact fresh (((leaves.mem_ready y).mp alsoReady).2.2 x (leaves.keeps y before))

theorem node_of_before (before : x ∈ explored.graph.before y) :
    y ∈ explored.graph.nodes := by
  obtain ⟨entry, -, -, after⟩ := before
  exact Explored.mem_of_successors after

theorem putsBack (leaves : Leaves explored g rank out sort) :
    PutsBack g (Layering.after {x | x ∈ out} sort.ready) (later explored sort) (edges explored sort) where
  node x back := by
    obtain ⟨node, -, before⟩ := (leaves.mem_ready x).mp (ready_of_later back).1
    exact ⟨node, .inr (ready_of_later back).1, fun y earlier => .inl (before y earlier)⟩
  source edge listed := by
    rcases List.mem_append.mp listed with chained | restored
    · exact (mem_of_chainEdges chained).1
    · exact (mem_restoredEdges.mp restored).1
  target edge listed := by
    rcases List.mem_append.mp listed with chained | restored
    · exact .inl (mem_of_chainEdges chained).2
    · obtain ⟨back, successor, present⟩ := mem_restoredEdges.mp restored
      have before := (Explored.mem_successorsOf _ _).mp successor
      refine .inr ⟨?_, leaves.left_of_before (ready_of_later back).1 before⟩
      rw [leaves.nodes]
      exact present

/-- What is put back comes out before all else that is left, the last of it first. -/
def rankBack (explored : Explored T) (rank : MembershipDigest → Nat) (sort : Topsort) (x : MembershipDigest) : Nat :=
  if x ∈ later explored sort then (later explored sort).length - 1 - (later explored sort).idxOf x
  else rank x + (later explored sort).length

theorem ranked_back (leaves : Leaves explored g rank out sort)
    (leftX : x ∉ out ++ given explored.allOps sort) (leftY : y ∉ out ++ given explored.allOps sort)
    (before : y ∈ (withEdges g (later explored sort) (edges explored sort)).before x) :
    rankBack explored rank sort y < rankBack explored rank sort x := by
  unfold rankBack
  rcases before with ⟨before, stays⟩ | edge
  · have outY : y ∉ out := fun old => leftY (List.mem_append_left _ old)
    rw [if_neg stays, if_neg fun back =>
      outY (((leaves.mem_ready x).mp (ready_of_later back).1).2.2 y before)]
    have := leaves.ranked x y (fun old => leftX (List.mem_append_left _ old)) outY before
    omega
  · rcases List.mem_append.mp edge with chained | restored
    · have distinct : (later explored sort).Nodup :=
        (nodup_revocations explored.allOps sort).sublist (List.drop_sublist 1 _)
      obtain ⟨backY, backX⟩ := mem_of_chainEdges chained
      have against : (later explored sort).idxOf x < (later explored sort).idxOf y :=
        idxOf_lt_of_chainEdges distinct chained
      have bound : (later explored sort).idxOf y < _ := List.idxOf_lt_length_of_mem backY
      rw [if_pos backY, if_pos backX]
      omega
    · obtain ⟨backY, successor, -⟩ := mem_restoredEdges.mp restored
      have left := leaves.left_of_before (ready_of_later backY).1 ((Explored.mem_successorsOf _ _).mp successor)
      rw [if_pos backY, if_neg fun back => left (.inr (ready_of_later back).1)]
      have := List.length_pos_of_mem backY
      omega

/-- **One round** gives out what is ready and leaves the rest. -/
theorem next (leaves : Leaves explored g rank out sort) :
    ∃ g' rank', Leaves explored g' rank' (out ++ given explored.allOps sort)
      (Frontier.next explored.allOps explored.adjacencies.successorsOf sort) := by
  have popped := leaves.holds.popList sort.nodup_ready fun x ready =>
    ⟨((leaves.mem_ready x).mp ready).1, ((leaves.mem_ready x).mp ready).2.1⟩
  have cleared : Cleared _ sort.popAll.2 := leaves.cleared.popList
  have same := leaves.without_later
  by_cases none : later explored sort = []
  · have unchanged : Layering.after {x | x ∈ out} sort.ready = {x | x ∈ out ++ given explored.allOps sort} := by
      rw [← same, none]
      ext x
      exact ⟨fun done => ⟨done, List.not_mem_nil⟩, And.left⟩
    rw [unchanged] at popped cleared
    refine ⟨g, rank, ?_, ?_, leaves.nodes, leaves.keeps, leaves.within, fun x y leftX leftY => ?_,
      leaves.ordered_given, leaves.listed_given⟩
    · rwa [Frontier.next, if_pos (List.isEmpty_iff.mpr none)]
    · rwa [Frontier.next, if_pos (List.isEmpty_iff.mpr none)]
    · exact leaves.ranked x y (fun old => leftX (List.mem_append_left _ old))
        fun old => leftY (List.mem_append_left _ old)
  · obtain ⟨nodes, deps, rdeps⟩ := chain_has sort.popAll.2 none
    have puts := leaves.putsBack
    have putBack := popped.putBack cleared puts
      (putBack explored.allOps explored.adjacencies.successorsOf sort.popAll.2 (later explored sort))
      (fun x => by
        rw [putBack_eq, mem_deps_addEdges, nodes]
        refine ⟨?_, .inl⟩
        rintro (known | ⟨edge, listed, rfl | rfl⟩)
        · exact known
        · exact .inr (puts.source edge (List.mem_append_right _ listed))
        · rcases puts.target edge (List.mem_append_right _ listed) with back | left
          · exact .inr back
          · exact .inl ((popped.nodes _).mpr left))
      (fun x y => by rw [putBack_eq, mem_getD_deps_addEdges, deps, List.mem_append, or_assoc]; rfl)
      (fun x y => by rw [putBack_eq, mem_getD_rdeps_addEdges, rdeps, List.mem_append, or_assoc]; rfl)
    rw [same] at putBack
    refine ⟨withEdges g (later explored sort) (edges explored sort), rankBack explored rank sort, ?_, ?_,
      leaves.nodes, fun x y before => ?_, fun x y before => ?_, fun x y => leaves.ranked_back,
      leaves.ordered_given, leaves.listed_given⟩
    · rw [Frontier.next, if_neg fun empty => none (List.isEmpty_iff.mp empty)]
      exact putBack.1
    · rw [Frontier.next, if_neg fun empty => none (List.isEmpty_iff.mp empty)]
      exact putBack.2
    · by_cases back : y ∈ later explored sort
      · refine .inr (List.mem_append_right _ (mem_restoredEdges.mpr ⟨back, ?_, node_of_before before⟩))
        exact (Explored.mem_successorsOf _ _).mpr before
      · exact .inl ⟨leaves.keeps x before, back⟩
    · rcases before with ⟨before, -⟩ | edge
      · exact leaves.within x before
      · exact (puts.node y (puts.source _ edge)).1

theorem drain (fuel : Nat) : ∀ {g : Layering.Graph MembershipDigest} {rank : MembershipDigest → Nat}
    {out : List MembershipDigest} {sort : Topsort}, Leaves explored g rank out sort →
      explored.allOps.size + 1 ≤ fuel + out.length →
      Layering.Ordered explored.graph ∅ (drain explored.allOps explored.adjacencies.successorsOf fuel sort out) ∧
        ∀ x, x ∈ drain explored.allOps explored.adjacencies.successorsOf fuel sort out ↔ x ∈ explored.allOps := by
  -- What was given out lies among the operations and has no repetition, so the fuel never runs out.
  have bounded {g rank out sort} (leaves : Leaves explored g rank out sort) : out.length ≤ explored.allOps.size := by
    rw [← ExtTreeMap.length_keys]
    exact (leaves.ordered.nodup.subperm fun x given =>
      ExtTreeMap.mem_keys.mpr (leaves.listed x given)).length_le
  induction fuel with
  | zero =>
    intro g rank out sort leaves enough
    have := bounded leaves
    omega
  | succ fuel ih =>
    intro g rank out sort leaves enough
    rw [drain_succ]
    split
    · rename_i ended
      refine ⟨leaves.ordered, fun x => ⟨leaves.listed x, fun present => ?_⟩⟩
      by_contra left
      have node : x ∈ g.nodes := by
        rw [leaves.nodes]
        exact present
      rcases ended with empty | noneReady
      · have inSort := (leaves.holds.nodes x).mpr ⟨node, left⟩
        rw [TopologicalSort.isEmpty, ExtTreeMap.isEmpty_iff] at empty
        simp [empty] at inSort
      · exact leaves.exists_ready node left noneReady
    · rename_i going
      obtain ⟨g', rank', left⟩ := leaves.next
      have progress := List.length_pos_iff.mpr (given_ne_nil explored.allOps sort fun none => going (.inr none))
      exact ih left (by rw [List.length_append]; omega)

end Leaves

end KeyhiveEval.Core
