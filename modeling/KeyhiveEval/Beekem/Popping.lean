/-
**What a topological sort holds while it is popped.**

The sort keeps, for each node that is left, the nodes that it depends on and the nodes that depend on it. It holds
what is left of a graph (`TopologicalSort.Holds`), and so the nodes that are ready are those whose predecessors are done.

* `TopologicalSort.Holds.popList` — popping nodes.
* `TopologicalSort.addEdges`, `TopologicalSort.Holds.putBack` — popped nodes that are put back with edges of their own.
-/

import KeyhiveEval.Beekem.TopSort
import KeyhiveEval.Lib.Layering
import KeyhiveEval.Lib.OrderedSets

namespace KeyhiveEval.Beekem

open Std OrderedSets

set_option linter.unusedSectionVars false

/-! ### Maps from nodes to sets of nodes -/

section SetMaps

variable {T : Type} [Ord T] [TransOrd T] [LawfulEqOrd T] [DecidableEq T]
  {map : ExtTreeMap T (ExtTreeSet T)} {key value x y : T}

@[simp]
theorem getD_orDefault : (orDefault map key).getD x ∅ = map.getD x ∅ := by
  unfold orDefault
  split
  · rfl
  · rename_i absent
    rw [getD_insert_iff]
    split
    · rename_i same
      subst same
      rw [ExtTreeMap.getD_eq_fallback (fun member => absent (ExtTreeMap.contains_iff_mem.mpr member))]
    · rfl

@[simp]
theorem mem_orDefault : x ∈ orDefault map key ↔ x = key ∨ x ∈ map := by
  unfold orDefault
  split
  · rename_i present
    refine ⟨.inr, fun member => member.elim (fun same => ?_) id⟩
    rw [same]
    exact ExtTreeMap.contains_iff_mem.mp present
  · exact mem_map_insert_iff

@[simp]
theorem mem_getD_insertAt :
    y ∈ (insertAt map key value).getD x ∅ ↔ (x = key ∧ y = value) ∨ y ∈ map.getD x ∅ := by
  unfold insertAt
  rw [getD_insert_iff]
  split
  · rename_i same
    subst same
    simp only [mem_insert_iff, true_and]
  · rename_i apart
    simp [apart]

@[simp]
theorem mem_insertAt : x ∈ insertAt map key value ↔ x = key ∨ x ∈ map := mem_map_insert_iff

@[simp]
theorem mem_getD_removeAt :
    y ∈ (removeAt map key value).getD x ∅ ↔ y ∈ map.getD x ∅ ∧ ¬ (x = key ∧ y = value) := by
  unfold removeAt
  split
  · rename_i values found
    rw [getD_insert_iff]
    split
    · rename_i same
      subst same
      rw [mem_erase_iff, ExtTreeMap.getD_eq_getD_getElem?, found]
      simp only [Option.getD_some, true_and]
      exact and_comm
    · rename_i apart
      simp [apart]
  · rename_i absent
    refine ⟨fun member => ⟨member, ?_⟩, fun both => both.1⟩
    rintro ⟨rfl, -⟩
    rw [ExtTreeMap.getD_eq_getD_getElem?, absent] at member
    simp at member

@[simp]
theorem mem_removeAt : x ∈ removeAt map key value ↔ x ∈ map := by
  unfold removeAt
  split
  · rename_i values found
    rw [mem_map_insert_iff]
    refine ⟨fun member => member.elim (fun same => ?_) id, .inr⟩
    rw [same]
    exact mem_iff_exists.mpr ⟨values, found⟩
  · rfl

end SetMaps

/-! ### Popping nodes -/

namespace TopologicalSort

section Pop

variable {T : Type} [Ord T] [TransOrd T] [LawfulEqOrd T] [DecidableEq T]

/-- The sort holds what is left of a graph when some nodes are done. -/
structure Holds (g : Layering.Graph T) (done : Set T) (sort : TopologicalSort T) : Prop where
  nodes : ∀ x, x ∈ sort.deps ↔ x ∈ g.nodes ∧ x ∉ done
  deps : ∀ x ∈ g.nodes, x ∉ done → ∀ y, y ∈ sort.deps.getD x ∅ ↔ y ∈ g.before x ∧ y ∉ done
  rdeps : ∀ x ∈ g.nodes, x ∉ done → ∀ y,
    y ∈ sort.rdeps.getD x ∅ ↔ y ∈ g.nodes ∧ x ∈ g.before y

theorem mem_foldl_removeAt (node : T) (list : List T) (map : ExtTreeMap T (ExtTreeSet T)) (x : T) :
    x ∈ list.foldl (fun map dependent => removeAt map dependent node) map ↔ x ∈ map := by
  induction list generalizing map with
  | nil => rfl
  | cons a list ih => rw [List.foldl_cons, ih, mem_removeAt]

theorem mem_getD_foldl_removeAt (node : T) (list : List T) (map : ExtTreeMap T (ExtTreeSet T))
    (x y : T) :
    y ∈ (list.foldl (fun map dependent => removeAt map dependent node) map).getD x ∅
      ↔ y ∈ map.getD x ∅ ∧ ¬ (x ∈ list ∧ y = node) := by
  induction list generalizing map with
  | nil => simp
  | cons a list ih =>
    rw [List.foldl_cons, ih, mem_getD_removeAt, List.mem_cons]
    tauto

theorem pop_deps (sort : TopologicalSort T) (node x : T) :
    (x ∈ (sort.pop node).deps ↔ x ≠ node ∧ x ∈ sort.deps) ∧
      ∀ y, y ∈ (sort.pop node).deps.getD x ∅ ↔
        x ≠ node ∧ y ∈ sort.deps.getD x ∅ ∧ ¬ (x ∈ sort.rdeps.getD node ∅ ∧ y = node) := by
  have erased : x ∈ sort.deps.erase node ↔ x ≠ node ∧ x ∈ sort.deps := by
    rw [ExtTreeMap.mem_erase, Ne, LawfulEqCmp.compare_eq_iff_eq, Ne, eq_comm]
  have value : ∀ y, y ∈ (sort.deps.erase node).getD x ∅ ↔ x ≠ node ∧ y ∈ sort.deps.getD x ∅ := by
    intro y
    rw [ExtTreeMap.getD_erase]
    split
    · rename_i same
      simp [LawfulEqCmp.compare_eq_iff_eq.mp same]
    · rename_i apart
      have apart : x ≠ node := fun same => apart (by simp [same])
      simp [apart]
  unfold pop
  cases found : sort.rdeps[node]? with
  | none =>
    refine ⟨erased, fun y => ?_⟩
    rw [ExtTreeMap.getD_eq_getD_getElem? (t := sort.rdeps), found]
    simp [value]
  | some dependents =>
    simp only [ExtTreeSet.foldl_eq_foldl_toList]
    refine ⟨(mem_foldl_removeAt _ _ _ _).trans erased, fun y => ?_⟩
    rw [mem_getD_foldl_removeAt, value, ExtTreeSet.mem_toList,
      ExtTreeMap.getD_eq_getD_getElem? (t := sort.rdeps), found, Option.getD_some, and_assoc]

theorem pop_rdeps (sort : TopologicalSort T) {node x : T} (apart : x ≠ node) :
    (sort.pop node).rdeps.getD x ∅ = sort.rdeps.getD x ∅ := by
  unfold pop
  split
  · rfl
  · show (sort.rdeps.erase node).getD x ∅ = _
    rw [ExtTreeMap.getD_erase, if_neg fun same => apart (LawfulEqCmp.compare_eq_iff_eq.mp same).symm]

variable {g : Layering.Graph T} {done : Set T} {sort : TopologicalSort T}

theorem Holds.pop (holds : Holds g done sort) {node : T} (left : node ∈ g.nodes ∧ node ∉ done) :
    Holds g (Layering.after done [node]) (sort.pop node) := by
  have notDone (x : T) : x ∉ Layering.after done [node] ↔ x ∉ done ∧ x ≠ node := by
    simp [Layering.after, not_or]
  refine ⟨fun x => ?_, fun x isNode leftX y => ?_, fun x isNode leftX y => ?_⟩
  · rw [(pop_deps sort node x).1, holds.nodes, notDone]
    tauto
  · rw [notDone] at leftX ⊢
    rw [(pop_deps sort node x).2, holds.deps x isNode leftX.1, holds.rdeps node left.1 left.2]
    constructor
    · rintro ⟨-, ⟨before, leftY⟩, kept⟩
      exact ⟨before, leftY, fun same => kept ⟨⟨isNode, same ▸ before⟩, same⟩⟩
    · rintro ⟨before, leftY, apart⟩
      exact ⟨leftX.2, ⟨before, leftY⟩, fun both => apart both.2⟩
  · rw [notDone] at leftX
    rw [pop_rdeps sort leftX.2]
    exact holds.rdeps x isNode leftX.1 y

theorem Holds.popList (holds : Holds g done sort) {list : List T} (distinct : list.Nodup)
    (left : ∀ x ∈ list, x ∈ g.nodes ∧ x ∉ done) :
    Holds g (Layering.after done list) (list.foldl TopologicalSort.pop sort) := by
  induction list generalizing done sort with
  | nil =>
    have same : Layering.after done [] = done := by
      ext x
      simp [Layering.after]
    rwa [same]
  | cons node list ih =>
    have same : Layering.after (Layering.after done [node]) list
        = Layering.after done (node :: list) := by
      ext x
      simp [Layering.after, or_assoc]
    rw [← same]
    refine ih (holds.pop (left node List.mem_cons_self)) (List.nodup_cons.mp distinct).2 ?_
    intro x member
    refine ⟨(left x (List.mem_cons_of_mem _ member)).1, ?_⟩
    rintro (done | here)
    · exact (left x (List.mem_cons_of_mem _ member)).2 done
    · rw [List.mem_singleton] at here
      exact (List.nodup_cons.mp distinct).1 (here ▸ member)

theorem Holds.mem_ready (holds : Holds g done sort) (x : T) :
    x ∈ sort.ready ↔ x ∈ g.nodes ∧ x ∉ done ∧ g.before x ⊆ done := by
  have entry : x ∈ sort.ready ↔ x ∈ sort.deps ∧ (sort.deps.getD x ∅).isEmpty = true := by
    unfold ready
    simp only [List.mem_map, List.mem_filter, Prod.exists,
      ExtTreeMap.mem_toList_iff_getElem?_eq_some]
    constructor
    · rintro ⟨key, values, ⟨found, empty⟩, rfl⟩
      rw [ExtTreeMap.getD_eq_getD_getElem?, found]
      exact ⟨mem_iff_exists.mpr ⟨values, found⟩, empty⟩
    · rintro ⟨member, empty⟩
      obtain ⟨values, found⟩ := mem_iff_exists.mp member
      rw [ExtTreeMap.getD_eq_getD_getElem?, found] at empty
      exact ⟨x, values, ⟨found, empty⟩, rfl⟩
  rw [entry, holds.nodes, and_assoc]
  refine and_congr_right fun isNode => and_congr_right fun left => ?_
  rw [isEmpty_iff_forall_not_mem]
  constructor
  · intro none y before
    by_contra leftY
    exact none y ((holds.deps x isNode left y).mpr ⟨before, leftY⟩)
  · intro within y member
    obtain ⟨before, leftY⟩ := (holds.deps x isNode left y).mp member
    exact leftY (within before)

theorem sorted_ready (sort : TopologicalSort T) : sort.ready.Pairwise Less := by
  have keys : sort.ready.Sublist sort.deps.keys := by
    rw [← ExtTreeMap.map_fst_toList_eq_keys]
    exact List.filter_sublist.map _
  exact ExtTreeMap.ordered_keys.sublist keys

theorem nodup_ready (sort : TopologicalSort T) : sort.ready.Nodup :=
  sort.sorted_ready.imp fun {a b} less (same : a = b) =>
    Std.Irrefl.irrefl (r := Less) b (same ▸ less)

end Pop

/-! ### Adding edges -/

section Edges

variable {T : Type} [Ord T] [TransOrd T] [LawfulEqOrd T] [DecidableEq T]

/-- For each edge, its first node is to be popped before its second. -/
def addEdges (sort : TopologicalSort T) (edges : List (T × T)) : TopologicalSort T :=
  edges.foldl (fun sort edge => sort.addDependency edge.1 edge.2) sort

variable {sort : TopologicalSort T} {edges : List (T × T)} {x y : T}

theorem mem_deps_addEdges :
    x ∈ (sort.addEdges edges).deps ↔ x ∈ sort.deps ∨ ∃ edge ∈ edges, x = edge.1 ∨ x = edge.2 := by
  unfold addEdges
  induction edges generalizing sort with
  | nil => simp
  | cons edge edges ih =>
    rw [List.foldl_cons, ih, addDependency]
    simp only [mem_insertAt, mem_orDefault, List.exists_mem_cons_iff, or_assoc, or_left_comm]

theorem mem_getD_deps_addEdges :
    y ∈ (sort.addEdges edges).deps.getD x ∅ ↔ y ∈ sort.deps.getD x ∅ ∨ (y, x) ∈ edges := by
  unfold addEdges
  induction edges generalizing sort with
  | nil => simp
  | cons edge edges ih =>
    rw [List.foldl_cons, ih, addDependency]
    simp only [mem_getD_insertAt, getD_orDefault, List.mem_cons, Prod.ext_iff]
    tauto

theorem mem_getD_rdeps_addEdges :
    y ∈ (sort.addEdges edges).rdeps.getD x ∅ ↔ y ∈ sort.rdeps.getD x ∅ ∨ (x, y) ∈ edges := by
  unfold addEdges
  induction edges generalizing sort with
  | nil => simp
  | cons edge edges ih =>
    rw [List.foldl_cons, ih, addDependency]
    simp only [mem_getD_insertAt, getD_orDefault, List.mem_cons, Prod.ext_iff]
    tauto

variable {g : Layering.Graph T} {done : Set T} {back : List T}

/-- Nothing is recorded to depend on what is done. -/
def Cleared (done : Set T) (sort : TopologicalSort T) : Prop := ∀ x ∈ done, ∀ y, y ∉ sort.rdeps.getD x ∅

theorem Cleared.pop {node : T} (cleared : Cleared done sort) : Cleared (Layering.after done [node]) (sort.pop node) := by
  intro x member y
  by_cases here : x = node
  · subst here
    unfold TopologicalSort.pop
    split
    · rename_i absent
      simp [ExtTreeMap.getD_eq_getD_getElem?, absent]
    · simp
  · rw [pop_rdeps sort here]
    exact cleared x (member.resolve_right fun same => here (List.mem_singleton.mp same)) y

theorem Cleared.popList {list : List T} (cleared : Cleared done sort) :
    Cleared (Layering.after done list) (list.foldl TopologicalSort.pop sort) := by
  induction list generalizing done sort with
  | nil => exact fun x member => cleared x (member.resolve_right List.not_mem_nil)
  | cons node list ih =>
    intro x member
    refine ih cleared.pop x ?_
    rcases member with old | new
    · exact .inl (.inl old)
    · rcases List.mem_cons.mp new with rfl | later
      · exact .inl (.inr List.mem_cons_self)
      · exact .inr later

/-- The graph after some nodes were put back: of the edges from them only the given ones are left. -/
def withEdges (g : Layering.Graph T) (back : List T) (edges : List (T × T)) : Layering.Graph T where
  nodes := g.nodes
  before x := {y | (y ∈ g.before x ∧ y ∉ back) ∨ (y, x) ∈ edges}

/-- Nodes that are put back were done, with all that comes before them, and the edges go from them to nodes that are
left or are put back too. -/
structure PutsBack (g : Layering.Graph T) (done : Set T) (back : List T) (edges : List (T × T)) : Prop where
  node : ∀ x ∈ back, x ∈ g.nodes ∧ x ∈ done ∧ g.before x ⊆ done
  source : ∀ edge ∈ edges, edge.1 ∈ back
  target : ∀ edge ∈ edges, edge.2 ∈ back ∨ (edge.2 ∈ g.nodes ∧ edge.2 ∉ done)

/-- What is done after some nodes were put back. -/
def without (done : Set T) (back : List T) : Set T := {x | x ∈ done ∧ x ∉ back}

theorem Holds.putBack (holds : Holds g done sort) (cleared : Cleared done sort) (puts : PutsBack g done back edges)
    (sort' : TopologicalSort T) (deps : ∀ x, x ∈ sort'.deps ↔ x ∈ sort.deps ∨ x ∈ back)
    (depsOf : ∀ x y, y ∈ sort'.deps.getD x ∅ ↔ y ∈ sort.deps.getD x ∅ ∨ (y, x) ∈ edges)
    (rdepsOf : ∀ x y, y ∈ sort'.rdeps.getD x ∅ ↔ y ∈ sort.rdeps.getD x ∅ ∨ (x, y) ∈ edges) :
    Holds (withEdges g back edges) (without done back) sort' ∧ Cleared (without done back) sort' := by
  have isNode {edge : T × T} (listed : edge ∈ edges) : edge.2 ∈ g.nodes := by
    rcases puts.target edge listed with inBack | left
    · exact (puts.node _ inBack).1
    · exact left.1
  refine ⟨⟨fun x => ?_, fun x node left y => ?_, fun x node left y => ?_⟩, fun x member y present => ?_⟩
  · rw [deps, holds.nodes]
    constructor
    · rintro (⟨node, left⟩ | inBack)
      · exact ⟨node, fun done => left done.1⟩
      · exact ⟨(puts.node x inBack).1, fun done => done.2 inBack⟩
    · rintro ⟨node, left⟩
      by_cases inBack : x ∈ back
      · exact .inr inBack
      · exact .inl ⟨node, fun isDone => left ⟨isDone, inBack⟩⟩
  · rw [depsOf]
    show _ ↔ ((y ∈ g.before x ∧ y ∉ back) ∨ (y, x) ∈ edges) ∧ ¬ (y ∈ done ∧ y ∉ back)
    by_cases isDone : x ∈ done
    · -- The node itself was put back: all that came before it in the graph is done.
      have inBack : x ∈ back := by
        by_contra out
        exact left ⟨isDone, out⟩
      have bare : y ∉ sort.deps.getD x ∅ := by
        rw [ExtTreeMap.getD_eq_fallback fun present => ((holds.nodes x).mp present).2 isDone]
        simp
      constructor
      · rintro (present | edge)
        · exact absurd present bare
        · exact ⟨.inr edge, fun both => both.2 (puts.source _ edge)⟩
      · rintro ⟨⟨before, out⟩ | edge, free⟩
        · exact absurd ⟨(puts.node x inBack).2.2 before, out⟩ free
        · exact .inr edge
    · rw [holds.deps x node isDone]
      constructor
      · rintro (⟨before, leftY⟩ | edge)
        · exact ⟨.inl ⟨before, fun inBack => leftY (puts.node y inBack).2.1⟩, fun both => leftY both.1⟩
        · exact ⟨.inr edge, fun both => both.2 (puts.source _ edge)⟩
      · rintro ⟨⟨before, out⟩ | edge, free⟩
        · exact .inl ⟨before, fun doneY => free ⟨doneY, out⟩⟩
        · exact .inr edge
  · rw [rdepsOf]
    show _ ↔ y ∈ g.nodes ∧ ((x ∈ g.before y ∧ x ∉ back) ∨ (x, y) ∈ edges)
    by_cases isDone : x ∈ done
    · have inBack : x ∈ back := by
        by_contra out
        exact left ⟨isDone, out⟩
      constructor
      · rintro (present | edge)
        · exact absurd present (cleared x isDone y)
        · exact ⟨isNode edge, .inr edge⟩
      · rintro ⟨-, ⟨-, out⟩ | edge⟩
        · exact absurd inBack out
        · exact .inr edge
    · have out : x ∉ back := fun inBack => isDone (puts.node x inBack).2.1
      rw [holds.rdeps x node isDone]
      constructor
      · rintro (⟨nodeY, before⟩ | edge)
        · exact ⟨nodeY, .inl ⟨before, out⟩⟩
        · exact absurd (puts.source _ edge) out
      · rintro ⟨nodeY, ⟨before, -⟩ | edge⟩
        · exact .inl ⟨nodeY, before⟩
        · exact .inr edge
  · rcases (rdepsOf x y).mp present with old | edge
    · exact cleared x member.1 y old
    · exact member.2 (puts.source _ edge)

end Edges

end TopologicalSort

end KeyhiveEval.Beekem
