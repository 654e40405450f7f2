/-
**The operation graphs of a run.**

Every replica of a run holds a part of what was published that is closed under predecessors, and every
operation follows only operations that were published before it. So the graphs of all replicas are
causal (`World.Histories.causal`), and they agree where they overlap.

Operations are told apart by their digests. What is said here is said of runs in which no two
different operations that were published have one digest (`World.NoCollision`): the digest is a
parameter, and no function into 32 bytes is injective.

* `Grown` — a graph that has grown out of published operations.
* `World.Reachable.histories` — every graph of a run has grown out of what was published.
* `Exact` — the heads of the graph are exactly the operations that nothing follows. Merging forks takes
  the heads of both sides together, so this is a statement about runs in which neither side of a merge is
  behind the other (`World.Reachable.heads`).
-/

import KeyhiveEval.Beekem.Steps
import KeyhiveEval.Beekem.Invariant
import KeyhiveEval.Beekem.Epochs

set_option linter.unusedSectionVars false

namespace KeyhiveEval.Beekem

open Std Stateful OrderedSets

/-! ### Graphs that grow -/

namespace CgkaOperationGraph

/-- **A graph that has grown out of published operations.** -/
structure Grown (hash : SignedOp → OpDigest) (ops : List SignedOp) (root : SignedOp)
    (graph : CgkaOperationGraph) : Prop where
  keyed : ∀ (h : OpDigest) (op : SignedOp), graph.cgkaOps[h]? = some op → hash op = h ∧ op ∈ ops
  preds : ∀ h : OpDigest, graph.cgkaOpsPredecessors[h]?
    = graph.cgkaOps[h]?.map fun op => op.payload.predecessors
  closed : ∀ (h : OpDigest) (op : SignedOp), graph.cgkaOps[h]? = some op →
    ∀ p ∈ op.payload.predecessors, p ∈ graph.cgkaOps
  root : graph.cgkaOps[hash root]? = some root
  heads : ∀ h ∈ graph.cgkaOpHeads, h ∈ graph.cgkaOps
  /-- An operation is a head unless something follows it. -/
  covered : ∀ h ∈ graph.cgkaOps, h ∈ graph.cgkaOpHeads ∨
    ∃ (h' : OpDigest) (op' : SignedOp), graph.cgkaOps[h']? = some op' ∧ h ∈ op'.payload.predecessors
  nonempty : ∃ h, h ∈ graph.cgkaOpHeads

/-- Nothing follows a head. -/
def Exact (graph : CgkaOperationGraph) : Prop :=
  ∀ h ∈ graph.cgkaOpHeads, ∀ (h' : OpDigest) (op' : SignedOp), graph.cgkaOps[h']? = some op' →
    h ∉ op'.payload.predecessors

/-- No two different operations have one digest. -/
def Distinct (hash : SignedOp → OpDigest) (ops : List SignedOp) : Prop :=
  ∀ first ∈ ops, ∀ second ∈ ops, hash first = hash second → first = second

theorem Distinct.left {hash : SignedOp → OpDigest} {ops more : List SignedOp}
    (distinct : Distinct hash (ops ++ more)) : Distinct hash ops := fun one here other there =>
  distinct one (List.mem_append_left _ here) other (List.mem_append_left _ there)

instance (hash : SignedOp → OpDigest) (ops : List SignedOp) : Decidable (Distinct hash ops) :=
  inferInstanceAs (Decidable (∀ first ∈ ops, ∀ second ∈ ops, _ → _))

theorem mem_eraseAll {set : ExtTreeSet OpDigest} {hashes : List OpDigest} {x : OpDigest} :
    x ∈ eraseAll set hashes ↔ x ∈ set ∧ x ∉ hashes := mem_foldl_erase hashes set x

section Grown

variable {hash : SignedOp → OpDigest} {ops : List SignedOp} {root : SignedOp}
  {graph : CgkaOperationGraph}

theorem Grown.mono {ops' : List SignedOp} (grown : Grown hash ops root graph)
    (more : ∀ op ∈ ops, op ∈ ops') : Grown hash ops' root graph :=
  { grown with keyed := fun h op found =>
      ⟨(grown.keyed h op found).1, more op (grown.keyed h op found).2⟩ }

variable {h : OpDigest} {op : SignedOp}

theorem Grown.same {graph' : CgkaOperationGraph} (distinct : Distinct hash ops)
    (grown : Grown hash ops root graph) (grown' : Grown hash ops root graph')
    {op' : SignedOp} (here : graph.cgkaOps[h]? = some op)
    (there : graph'.cgkaOps[h]? = some op') : op = op' := by
  obtain ⟨key, member⟩ := grown.keyed h op here
  obtain ⟨key', member'⟩ := grown'.keyed h op' there
  exact distinct op member op' member' (key.trans key'.symm)

theorem grown_new (free : ∀ p, p ∉ root.payload.predecessors) :
    Grown hash [root] root (CgkaOperationGraph.new.addLocalOp hash root) := by
  have ops (h : OpDigest) :
      (CgkaOperationGraph.new.addLocalOp hash root).cgkaOps[h]?
        = if h = hash root then some root else none := by
    show ((∅ : ExtTreeMap OpDigest SignedOp).insert (hash root) root)[h]? = _
    rw [getElem?_insert_iff, ExtTreeMap.getElem?_empty]
  have found {h : OpDigest} {op : SignedOp}
      (present : (CgkaOperationGraph.new.addLocalOp hash root).cgkaOps[h]? = some op) :
      h = hash root ∧ root = op := by
    rw [ops] at present
    split at present
    · exact ⟨by assumption, Option.some.inj present⟩
    · simp at present
  refine ⟨fun h op present => ?_, fun h => ?_, fun h op present p member => ?_, ?_, fun h member => ?_,
    fun h member => ?_, ⟨hash root, ?_⟩⟩
  · obtain ⟨rfl, rfl⟩ := found present
    exact ⟨rfl, List.mem_singleton_self _⟩
  · rw [ops]
    show ((∅ : ExtTreeMap OpDigest (ExtTreeSet OpDigest)).insert (hash root)
      CgkaOperationGraph.new.cgkaOpHeads)[h]? = _
    rw [getElem?_insert_iff, ExtTreeMap.getElem?_empty]
    split
    · refine congrArg Option.some (ExtTreeSet.ext_mem fun p => ?_)
      simp [free p, CgkaOperationGraph.new]
    · rfl
  · obtain ⟨rfl, rfl⟩ := found present
    exact absurd member (free p)
  · rw [ops, if_pos rfl]
  · have same : h = hash root := (mem_insert_iff.mp member).resolve_right (by simp)
    exact mem_iff_exists.mpr ⟨root, by rw [ops, if_pos same]⟩
  · obtain ⟨op, present⟩ := mem_iff_exists.mp member
    obtain ⟨rfl, -⟩ := found present
    exact .inl (mem_insert_iff.mpr (.inl rfl))
  · exact mem_insert_iff.mpr (.inl rfl)

/-- **An operation is added** to a graph that has its predecessors, and heads are taken out that it
follows. -/
theorem Grown.insert {heads addHeads : ExtTreeSet OpDigest}
    {preds : ExtTreeSet OpDigest} (grown : Grown hash ops root graph)
    (distinct : Distinct hash (ops ++ [op]))
    (same : ∀ p, p ∈ preds ↔ p ∈ op.payload.predecessors)
    (known : ∀ p ∈ op.payload.predecessors, p ∈ graph.cgkaOps)
    (mem_heads : ∀ h, h ∈ heads ↔ h = hash op ∨ (h ∈ graph.cgkaOpHeads ∧ h ∈ heads))
    (dropped : ∀ h ∈ graph.cgkaOpHeads, h ∈ heads ∨ h ∈ op.payload.predecessors) :
    Grown hash (ops ++ [op]) root
      ⟨graph.cgkaOps.insert (hash op) op, graph.cgkaOpsPredecessors.insert (hash op) preds, heads,
        addHeads⟩ := by
  have grown' : Grown hash (ops ++ [op]) root graph := grown.mono fun _ => List.mem_append_left _
  -- An entry that is overwritten is overwritten with itself.
  have kept {h : OpDigest} {old : SignedOp} (found : graph.cgkaOps[h]? = some old) :
      (graph.cgkaOps.insert (hash op) op)[h]? = some old := by
    rw [getElem?_insert_iff]
    split
    · rename_i here
      obtain ⟨key, member⟩ := grown'.keyed h old found
      rw [distinct old member op (by simp) (key.trans here)]
    · exact found
  have cases' {h : OpDigest} {new : SignedOp}
      (found : (graph.cgkaOps.insert (hash op) op)[h]? = some new) :
      (h = hash op ∧ new = op) ∨ graph.cgkaOps[h]? = some new := by
    rw [getElem?_insert_iff] at found
    split at found
    · exact .inl ⟨by assumption, (Option.some.inj found).symm⟩
    · exact .inr found
  refine ⟨fun h new found => ?_, fun h => ?_, fun h new found p member => ?_, kept grown.root,
    fun h member => ?_, fun h member => ?_, ⟨hash op, (mem_heads _).mpr (.inl rfl)⟩⟩
  · rcases cases' found with ⟨rfl, rfl⟩ | old
    · exact ⟨rfl, by simp⟩
    · exact grown'.keyed h new old
  · show (graph.cgkaOpsPredecessors.insert (hash op) preds)[h]?
      = (graph.cgkaOps.insert (hash op) op)[h]?.map _
    rw [getElem?_insert_iff, getElem?_insert_iff]
    split
    · exact congrArg Option.some (ExtTreeSet.ext_mem same)
    · exact grown.preds h
  · refine mem_map_insert_iff.mpr (.inr ?_)
    rcases cases' found with ⟨-, rfl⟩ | old
    · exact known p member
    · exact grown.closed h new old p member
  · refine mem_map_insert_iff.mpr ?_
    rcases (mem_heads h).mp member with here | ⟨old, -⟩
    · exact .inl here
    · exact .inr (grown.heads h old)
  · by_cases here : h = hash op
    · exact .inl ((mem_heads h).mpr (.inl here))
    · have old := (mem_map_insert_iff.mp member).resolve_left here
      rcases grown.covered h old with isHead | ⟨h', op', found, follows⟩
      · rcases dropped h isHead with stays | before
        · exact .inl stays
        · exact .inr ⟨hash op, op, by rw [getElem?_insert_iff, if_pos rfl], before⟩
      · exact .inr ⟨h', op', kept found, follows⟩

theorem Grown.addLocalOp (grown : Grown hash ops root graph)
    (distinct : Distinct hash (ops ++ [op]))
    (preds : ∀ p, p ∈ op.payload.predecessors ↔ p ∈ graph.cgkaOpHeads) :
    Grown hash (ops ++ [op]) root (graph.addLocalOp hash op) := by
  refine grown.insert distinct (fun p => (preds p).symm)
    (fun p member => grown.heads p ((preds p).mp member)) (fun h => ?_)
    fun h isHead => .inr ((preds h).mpr isHead)
  constructor
  · exact fun member => .inl ((mem_insert_iff.mp member).resolve_right (by simp))
  · rintro (rfl | ⟨-, member⟩)
    · exact mem_insert_iff.mpr (.inl rfl)
    · exact member

theorem Grown.addOp (grown : Grown hash ops root graph)
    (distinct : Distinct hash ops) (published : op ∈ ops)
    (known : ∀ p ∈ op.payload.predecessors, p ∈ graph.cgkaOps) :
    Grown hash ops root (graph.addOp hash op op.payload.predecessors) := by
  have listed : ∀ op' ∈ ops ++ [op], op' ∈ ops := fun op' member =>
    (List.mem_append.mp member).elim id fun here => List.mem_singleton.mp here ▸ published
  have distinct' : Distinct hash (ops ++ [op]) := fun first here second there =>
    distinct first (listed first here) second (listed second there)
  refine (grown.insert distinct' (fun p => Iff.rfl) known (fun h => ?_) fun h isHead => ?_).mono listed
  · rw [mem_insert_iff, mem_eraseAll]
    tauto
  · rw [mem_insert_iff, mem_eraseAll, ExtTreeSet.mem_toList]
    tauto

variable {fork : CgkaOperationGraph}

theorem Grown.getElem?_merge (grown : Grown hash ops root graph)
    (grown' : Grown hash ops root fork) (distinct : Distinct hash ops) :
    (graph.merge fork).cgkaOps[h]? = some op ↔
      graph.cgkaOps[h]? = some op ∨ fork.cgkaOps[h]? = some op := by
  show (fork.cgkaOps.foldl _ _)[h]? = _ ↔ _
  rw [getElem?_foldl_insertIfNew]
  cases here : graph.cgkaOps[h]? with
  | none => simp
  | some op' =>
    rw [Option.some_or]
    refine ⟨.inl, fun either => either.elim id fun there => ?_⟩
    rw [grown.same distinct grown' here there]

theorem mem_merge_heads :
    h ∈ (graph.merge fork).cgkaOpHeads ↔ h ∈ graph.cgkaOpHeads ∨ h ∈ fork.cgkaOpHeads := by
  show h ∈ fork.cgkaOpHeads.foldl _ _ ↔ _
  rw [ExtTreeSet.foldl_eq_foldl_toList, mem_foldl_insert, ExtTreeSet.mem_toList]

theorem Grown.merge (grown : Grown hash ops root graph)
    (grown' : Grown hash ops root fork) (distinct : Distinct hash ops) :
    Grown hash ops root (graph.merge fork) := by
  have lookup {h : OpDigest} {op : SignedOp} : (graph.merge fork).cgkaOps[h]? = some op ↔ _ ∨ _ :=
    grown.getElem?_merge grown' distinct
  have mem_left {h : OpDigest} (member : h ∈ graph.cgkaOps) : h ∈ (graph.merge fork).cgkaOps :=
    (mem_iff_exists.mp member).elim fun op found => mem_iff_exists.mpr ⟨op, lookup.mpr (.inl found)⟩
  have mem_right {h : OpDigest} (member : h ∈ fork.cgkaOps) : h ∈ (graph.merge fork).cgkaOps :=
    (mem_iff_exists.mp member).elim fun op found => mem_iff_exists.mpr ⟨op, lookup.mpr (.inr found)⟩
  refine ⟨fun h op found => ?_, fun h => ?_, fun h op found p member => ?_, lookup.mpr (.inl grown.root),
    fun h member => ?_, fun h member => ?_, ?_⟩
  · exact (lookup.mp found).elim (grown.keyed h op) (grown'.keyed h op)
  · show (fork.cgkaOpsPredecessors.foldl _ _)[h]? = (fork.cgkaOps.foldl _ _)[h]?.map _
    rw [getElem?_foldl_insert, getElem?_foldl_insertIfNew, grown.preds, grown'.preds]
    cases here : graph.cgkaOps[h]? with
    | none => simp
    | some op =>
      cases there : fork.cgkaOps[h]? with
      | none => simp
      | some op' => simp [grown.same distinct grown' here there]
  · rcases lookup.mp found with here | there
    · exact mem_left (grown.closed h op here p member)
    · exact mem_right (grown'.closed h op there p member)
  · exact (mem_merge_heads.mp member).elim (fun here => mem_left (grown.heads h here))
      fun there => mem_right (grown'.heads h there)
  · obtain ⟨op, found⟩ := mem_iff_exists.mp member
    rcases lookup.mp found with here | there
    · rcases grown.covered h (mem_iff_exists.mpr ⟨op, here⟩) with isHead | ⟨h', op', found', follows⟩
      · exact .inl (mem_merge_heads.mpr (.inl isHead))
      · exact .inr ⟨h', op', lookup.mpr (.inl found'), follows⟩
    · rcases grown'.covered h (mem_iff_exists.mpr ⟨op, there⟩) with
        isHead | ⟨h', op', found', follows⟩
      · exact .inl (mem_merge_heads.mpr (.inr isHead))
      · exact .inr ⟨h', op', lookup.mpr (.inr found'), follows⟩
  · obtain ⟨h, isHead⟩ := grown.nonempty
    exact ⟨h, mem_merge_heads.mpr (.inl isHead)⟩

end Grown

/-! ### What was published, in order -/

/-- **Every operation follows operations that were published before it**, and all but the first
follow one. -/
structure Chronicle (hash : SignedOp → OpDigest) (ops : List SignedOp) (root : SignedOp) : Prop where
  earlier : ∀ (i : Nat) (op : SignedOp), ops[i]? = some op → ∀ p ∈ op.payload.predecessors,
    ∃ (j : Nat) (op' : SignedOp), j < i ∧ ops[j]? = some op' ∧ hash op' = p
  first : ops[0]? = some root
  free : ∀ p, p ∉ root.payload.predecessors
  follows : ∀ (i : Nat) (op : SignedOp), ops[i]? = some op → 0 < i → ∃ p, p ∈ op.payload.predecessors

section Chronicle

variable {hash : SignedOp → OpDigest} {ops : List SignedOp} {root : SignedOp}
  {graph : CgkaOperationGraph}

theorem chronicle_new (free : ∀ p, p ∉ root.payload.predecessors) : Chronicle hash [root] root where
  earlier i op found p member := by
    match i with
    | 0 => exact absurd (Option.some.inj found ▸ member) (free p)
    | i + 1 => simp at found
  first := rfl
  free := free
  follows i op found positive := by
    match i with
    | 0 => omega
    | i + 1 => simp at found

theorem Chronicle.append {op : SignedOp} (chronicle : Chronicle hash ops root)
    (earlier : ∀ p ∈ op.payload.predecessors, ∃ op' ∈ ops, hash op' = p)
    (follows : ∃ p, p ∈ op.payload.predecessors) : Chronicle hash (ops ++ [op]) root := by
  have cases' {i : Nat} {op' : SignedOp} (found : (ops ++ [op])[i]? = some op') :
      ops[i]? = some op' ∨ (i = ops.length ∧ op' = op) := by
    rw [List.getElem?_append] at found
    split at found
    · exact .inl found
    · rename_i beyond
      have : i - ops.length = 0 := by
        by_contra more
        rw [List.getElem?_eq_none (by simp; omega)] at found
        simp at found
      rw [this] at found
      exact .inr ⟨by omega, (Option.some.inj found).symm⟩
  have stays {j : Nat} {op' : SignedOp} (found : ops[j]? = some op') :
      (ops ++ [op])[j]? = some op' := by
    rw [List.getElem?_append_left (List.getElem?_eq_some_iff.mp found).1, found]
  refine ⟨fun i op' found p member => ?_, stays chronicle.first, chronicle.free,
    fun i op' found positive => ?_⟩
  · rcases cases' found with old | ⟨rfl, rfl⟩
    · obtain ⟨j, op'', below, found', key⟩ := chronicle.earlier i op' old p member
      exact ⟨j, op'', below, stays found', key⟩
    · obtain ⟨op'', listed, key⟩ := earlier p member
      obtain ⟨j, bound, found'⟩ := List.mem_iff_getElem.mp listed
      exact ⟨j, op'', bound, stays (List.getElem?_eq_some_iff.mpr ⟨bound, found'⟩), key⟩
  · rcases cases' found with old | ⟨-, rfl⟩
    · exact chronicle.follows i op' old positive
    · exact follows

/-- **A graph that has grown out of published operations is causal.** -/
theorem Grown.causal (grown : Grown hash ops root graph) (chronicle : Chronicle hash ops root)
    (distinct : Distinct hash ops) : Causal hash graph := by
  classical
  refine ⟨fun h op found => (grown.keyed h op found).1, grown.preds, grown.closed,
    ⟨fun h => ops.findIdx fun op => hash op = h, fun h op found p member => ?_⟩,
    ⟨hash root, fun h op found => ?_⟩⟩
  · obtain ⟨key, listed⟩ := grown.keyed h op found
    have bound : ops.findIdx (fun op => decide (hash op = h)) < ops.length :=
      List.findIdx_lt_length_of_exists ⟨op, listed, by simpa using key⟩
    have here : ops[ops.findIdx fun op => decide (hash op = h)]? = some op := by
      have holds := List.findIdx_getElem (w := bound)
      rw [List.getElem?_eq_getElem bound]
      exact congrArg some (distinct _ (List.getElem_mem bound) op listed
        ((by simpa using holds : hash _ = h).trans key.symm))
    obtain ⟨j, op', below, found', key'⟩ := chronicle.earlier _ op here p member
    refine Nat.lt_of_le_of_lt ?_ below
    obtain ⟨inside, value⟩ := List.getElem?_eq_some_iff.mp found'
    by_contra later
    have fails := List.not_of_lt_findIdx (Nat.lt_of_not_le later)
    simp [value, key'] at fails
  · obtain ⟨key, listed⟩ := grown.keyed h op found
    constructor
    · intro none
      obtain ⟨i, bound, value⟩ := List.mem_iff_getElem.mp listed
      have here : ops[i]? = some op := List.getElem?_eq_some_iff.mpr ⟨bound, value⟩
      match i with
      | 0 =>
        rw [chronicle.first] at here
        rw [← key, Option.some.inj here]
      | i + 1 =>
        obtain ⟨p, member⟩ := chronicle.follows _ op here (by omega)
        exact absurd member (none p)
    · intro same
      have : root ∈ ops := List.mem_of_getElem? chronicle.first
      rw [distinct op listed root this (key.trans same)]
      exact chronicle.free

end Chronicle

end CgkaOperationGraph

/-! ### The graphs of a run -/

namespace Cgka

variable {S : Suite} {Cr : Type} [ContentRef Cr]

theorem Makes.mem_predecessors {mid : Cgka} {payload : CgkaOperation} {tree : BeeKem}
    (makes : Makes S mid payload tree) (p : OpDigest) :
    p ∈ payload.predecessors ↔ p ∈ mid.opsGraph.cgkaOpHeads := by
  have listed : payload.predecessorList = mid.opsGraph.cgkaOpHeads.toList := by
    cases makes <;> rfl
  unfold CgkaOperation.predecessors
  rw [listed, mem_ofList_iff, ExtTreeSet.mem_toList]

theorem Step.graph_cases {w : World Cr} {cgka cgka' : Cgka} {op : Option SignedOp}
    (step : Step S w cgka op cgka') :
    SameGroup cgka cgka' ∧
      ((op = none ∧ cgka'.opsGraph = cgka.opsGraph) ∨
        (∃ made, op = some made ∧ cgka'.opsGraph = cgka.opsGraph.addLocalOp S.hashOp made ∧
          ∀ p, p ∈ made.payload.predecessors ↔ p ∈ cgka.opsGraph.cgkaOpHeads) ∨
        (op = none ∧ ∃ taken ∈ w.published.map Prod.fst,
          cgka.opsGraph.containsOpHash (S.hashOp taken) = false ∧
          cgka.opsGraph.containsPredecessors taken.payload.predecessors = true ∧
          cgka'.opsGraph = cgka.opsGraph.addOp S.hashOp taken taken.payload.predecessors)) := by
  cases step with
  | keys keys => exact ⟨keys.sameGroup, .inl ⟨rfl, keys.opsGraph⟩⟩
  | make replays makes keys =>
    obtain ⟨graph, group, -⟩ := replayIfNeeded_frame replays
    obtain ⟨doc, member, init⟩ := keys.sameGroup
    refine ⟨⟨doc.trans group.1, member.trans group.2, init.trans group.3⟩,
      .inr (.inl ⟨_, rfl, ?_, ?_⟩)⟩
    · rw [keys.opsGraph, ← graph]
    · rw [← graph]
      exact makes.mem_predecessors
  | follow published unknown known follows replays applies =>
    obtain ⟨graph, group, -⟩ := replayIfNeeded_frame replays
    rcases applyOperation_ok applies with ⟨again, -⟩ | ⟨tree, -, -, rfl⟩
    · rw [graph, unknown] at again
      simp at again
    · refine ⟨⟨group.1, group.2, group.3⟩, .inr (.inr ⟨rfl, _, published, unknown, known, ?_⟩)⟩
      rw [← graph]
  | wait published unknown known concurrent waits =>
    exact ⟨⟨rfl, rfl, rfl⟩, .inr (.inr ⟨rfl, _, published, unknown, known, rfl⟩)⟩
  | join published unknown known concurrent settled isUpdate applies =>
    rcases applyOperation_ok applies with ⟨again, -⟩ | ⟨tree, -, -, rfl⟩
    · rw [unknown] at again
      simp at again
    · exact ⟨⟨rfl, rfl, rfl⟩, .inr (.inr ⟨rfl, _, published, unknown, known, rfl⟩)⟩

end Cgka

namespace CgkaOperationGraph

variable {graph : CgkaOperationGraph} {preds : ExtTreeSet OpDigest}

theorem containsPredecessors_iff :
    graph.containsPredecessors preds = true ↔ ∀ p ∈ preds, p ∈ graph.cgkaOps := by
  unfold containsPredecessors
  rw [List.all_eq_true]
  constructor
  · intro all p member
    exact ExtTreeMap.contains_iff_mem.mp (all p (ExtTreeSet.mem_toList.mpr member))
  · intro all p member
    exact ExtTreeMap.contains_iff_mem.mpr (all p (ExtTreeSet.mem_toList.mp member))

theorem headsContainedIn_iff :
    graph.headsContainedIn preds = true ↔ ∀ h ∈ graph.cgkaOpHeads, h ∈ preds := by
  unfold headsContainedIn
  rw [List.all_eq_true]
  constructor
  · intro all h member
    exact ExtTreeSet.contains_iff_mem.mp (all h (ExtTreeSet.mem_toList.mpr member))
  · intro all h member
    exact ExtTreeSet.contains_iff_mem.mpr (all h (ExtTreeSet.mem_toList.mp member))

end CgkaOperationGraph

namespace World

open CgkaOperationGraph

variable {S : Suite} {Cr : Type} [ContentRef Cr]

def ops (w : World Cr) : List SignedOp := w.published.map Prod.fst

/-- **No two different operations that were published have one digest.** -/
def NoCollision (S : Suite) (w : World Cr) : Prop := Distinct S.hashOp w.ops

instance (S : Suite) (w : World Cr) : Decidable (w.NoCollision S) :=
  inferInstanceAs (Decidable (Distinct _ _))

structure Histories (S : Suite) (first : Cgka) (w : World Cr) : Prop where
  chronicle : Chronicle S.hashOp w.ops first.initAddOp
  grown : w.Everywhere fun cgka =>
    Grown S.hashOp w.ops first.initAddOp cgka.opsGraph ∧ Cgka.SameGroup first cgka

theorem ops_record (w : World Cr) (replica : Nat) (cgka : Cgka) (output : Output Cr) :
    (w.record replica cgka output).ops = w.ops ++ output.op.toList := by
  unfold ops record
  simp [Function.comp_def]

theorem NoCollision.of_record {w : World Cr} {replica : Nat} {cgka : Cgka} {output : Output Cr}
    (noCollision : (w.record replica cgka output).NoCollision S) : w.NoCollision S := by
  unfold NoCollision at noCollision ⊢
  rw [ops_record] at noCollision
  exact noCollision.left

theorem Everywhere.mono {holds holds' : Cgka → Prop} {w : World Cr} (everywhere : w.Everywhere holds)
    (weaker : ∀ cgka, holds cgka → holds' cgka) : w.Everywhere holds' :=
  ⟨fun cgka member => weaker cgka (everywhere.replicas cgka member),
    fun entry member => weaker _ (everywhere.published entry member),
    fun entry member => weaker _ (everywhere.sent entry member)⟩

theorem new_graph {docId : TreeId} {ownerId : MemberId} {ownerPk : ShareKey} {signer : Signer}
    {first : Cgka} (created : Cgka.new S docId ownerId ownerPk signer = .ok first) :
    first.opsGraph = CgkaOperationGraph.new.addLocalOp S.hashOp first.initAddOp ∧
      ∀ p, p ∉ first.initAddOp.payload.predecessors := by
  obtain ⟨signedOp, signs, rest⟩ := except_bind_ok_iff.mp created
  obtain ⟨tree, new, rest⟩ := except_bind_ok_iff.mp rest
  obtain rfl := except_pure_ok_iff.mp rest
  refine ⟨rfl, fun p member => ?_⟩
  have payload : signedOp.payload = .initAdd docId ownerId ownerPk := by
    unfold Signer.trySignAsync at signs
    split at signs
    · obtain rfl := Except.ok.inj signs
      rfl
    · simp at signs
  have member : p ∈ signedOp.payload.predecessors := member
  rw [payload] at member
  have : p ∈ ([] : List OpDigest) := mem_ofList_iff.mp member
  simp at this

section Runs

variable {docId : TreeId} {ownerId : MemberId} {ownerPk : ShareKey} {signer : Signer} {first : Cgka}
  (created : Cgka.new S docId ownerId ownerPk signer = .ok first)
  {admits : World Cr → Cgka → Call Cr → Prop} {w : World Cr}

/-- What a move does to the graph of a replica whose graph has grown out of published operations. -/
theorem Histories.moves (histories : w.Histories S first) {call : Call Cr} {cgka cgka' : Cgka}
    {op : Option SignedOp} (member : cgka ∈ w.replicas)
    (distinct : Distinct S.hashOp (w.ops ++ op.toList)) (moves : Cgka.Moves S w call cgka op cgka') :
    Chronicle S.hashOp (w.ops ++ op.toList) first.initAddOp ∧
      Grown S.hashOp (w.ops ++ op.toList) first.initAddOp cgka'.opsGraph ∧
      Cgka.SameGroup first cgka' := by
  obtain ⟨grown, group⟩ := histories.grown.replicas cgka member
  rcases moves with step | ⟨rfl, i, fork, -, isReplica, -, result, -, rfl⟩
  · obtain ⟨group', moved⟩ := step.graph_cases
    rcases moved with ⟨rfl, same⟩ | ⟨made, rfl, same, preds⟩ |
      ⟨rfl, taken, published, unknown, known, same⟩
    · rw [same]
      simpa using ⟨histories.chronicle, grown, group.trans group'⟩
    · rw [same]
      refine ⟨histories.chronicle.append (fun p isPred => ?_) ?_, grown.addLocalOp distinct preds,
        group.trans group'⟩
      · obtain ⟨op, found⟩ := mem_iff_exists.mp (grown.heads p ((preds p).mp isPred))
        exact ⟨op, (grown.keyed p op found).2, (grown.keyed p op found).1⟩
      · obtain ⟨h, isHead⟩ := grown.nonempty
        exact ⟨h, (preds h).mpr isHead⟩
    · rw [same]
      simp only [Option.toList_none, List.append_nil] at distinct ⊢
      exact ⟨histories.chronicle, grown.addOp distinct published (containsPredecessors_iff.mp known),
        group.trans group'⟩
  · simp only [Option.toList_none, List.append_nil] at distinct ⊢
    exact ⟨histories.chronicle,
      grown.merge (histories.grown.replicas fork (List.mem_of_getElem? isReplica)).1 distinct,
      group.trans ⟨rfl, rfl, rfl⟩⟩

theorem Histories.step (histories : w.Histories S first) {cgka cgka' : Cgka} {op : Option SignedOp}
    (member : cgka ∈ w.replicas) (step : Cgka.Step S w cgka op cgka')
    (distinct : Distinct S.hashOp (w.ops ++ op.toList)) :
    Chronicle S.hashOp (w.ops ++ op.toList) first.initAddOp ∧
      Grown S.hashOp (w.ops ++ op.toList) first.initAddOp cgka'.opsGraph ∧
      Cgka.SameGroup first cgka' :=
  histories.moves member distinct
    (.inl step : Cgka.Moves S w (.withNewOwner cgka.ownerId ∅) cgka op cgka')

include created

/-- **Every graph of a run has grown out of what was published.** -/
theorem Reachable.histories (reached : Reachable S first admits w)
    (noCollision : w.NoCollision S) : w.Histories S first := by
  induction reached with
  | start =>
    obtain ⟨graph, free⟩ := new_graph created
    refine ⟨chronicle_new free, ?_⟩
    have grown : Grown S.hashOp (World.start first : World Cr).ops first.initAddOp first.opsGraph := by
      rw [graph]
      exact grown_new free
    exact everywhere_start ⟨grown, .refl _⟩
  | call before found admitted after ih =>
    rename_i w w' replica cgka call
    obtain ⟨cgka₀, computation, found₀, runs, outcome⟩ := next_cases after
    obtain rfl := Option.some.inj (found.symm.trans found₀)
    have member := List.mem_of_getElem? found
    have moves := Cgka.moves_call w runs
    have histories := ih (by
      rcases outcome with ⟨output, cgka', -, rfl⟩ | ⟨error, cgka', -, rfl⟩
      · exact noCollision.of_record
      · exact noCollision.of_record)
    rcases outcome with ⟨output, cgka', returns, rfl⟩ | ⟨error, cgka', fails, rfl⟩
    · rw [returns] at moves
      have distinct : Distinct S.hashOp (w.ops ++ output.op.toList) := by
        rw [← ops_record w replica cgka' output]
        exact noCollision
      obtain ⟨chronicle, grown, group⟩ := histories.moves member distinct moves.1
      refine ⟨ops_record w _ _ _ ▸ chronicle, ?_⟩
      rw [ops_record]
      refine (histories.grown.mono fun cgka both =>
        ⟨both.1.mono fun _ => List.mem_append_left _, both.2⟩).record ⟨grown, group⟩
          fun other copied => ?_
      obtain ⟨id, ownerSks, rfl⟩ := moves.2 other copied
      exact ⟨grown, ⟨group.1, group.2, group.3⟩⟩
    · rw [fails] at moves
      obtain ⟨graph, group⟩ := moves error rfl
      obtain ⟨grown, group₀⟩ := histories.grown.replicas cgka member
      have same : (w.record replica cgka' {}).ops = w.ops := by
        rw [ops_record]
        simp
      refine ⟨same ▸ histories.chronicle, ?_⟩
      rw [same]
      exact histories.grown.record ⟨graph ▸ grown, group₀.trans group⟩ (by simp)

/-- **The rule for runs, with what one call does.** -/
theorem Reachable.along {holds : World Cr → Prop} (start : holds (.start first))
    (step : ∀ {w : World Cr} {replica : Nat} {cgka cgka' : Cgka} {call : Call Cr}
      {computation : CgkaM (Output Cr)} {output : Output Cr}, Reachable S first admits w →
      w.Histories S first → (w.record replica cgka' output).NoCollision S → holds w →
      w.replicas[replica]? = some cgka → admits w cgka call →
      w.run S cgka call = some computation → computation cgka = .ok output cgka' →
      Cgka.Moves S w call cgka output.op cgka' →
      (∀ other ∈ output.replica, ∃ id ownerSks, other = cgka'.withNewOwner id ownerSks) →
      holds (w.record replica cgka' output))
    (fail : ∀ {w : World Cr} {replica : Nat} {cgka cgka' : Cgka} {call : Call Cr}
      {computation : CgkaM (Output Cr)} {error : CgkaError}, Reachable S first admits w →
      w.Histories S first → w.NoCollision S → holds w → w.replicas[replica]? = some cgka → admits w cgka call →
      w.run S cgka call = some computation → computation cgka = .error (.err error) cgka' →
      cgka'.opsGraph = cgka.opsGraph → Cgka.SameGroup cgka cgka' →
      holds (w.record replica cgka' {}))
    (reached : Reachable S first admits w) (noCollision : w.NoCollision S) : holds w := by
  induction reached with
  | start => exact start
  | call before found admitted after ih =>
    rename_i w w' replica cgka call
    obtain ⟨cgka₀, computation, found₀, runs, outcome⟩ := next_cases after
    obtain rfl := Option.some.inj (found.symm.trans found₀)
    have moves := Cgka.moves_call w runs
    rcases outcome with ⟨output, cgka', returns, rfl⟩ | ⟨error, cgka', fails, rfl⟩
    · rw [returns] at moves
      have earlier := noCollision.of_record
      exact step before (before.histories created earlier) noCollision (ih earlier) found admitted runs
        returns moves.1 moves.2
    · rw [fails] at moves
      obtain ⟨graph, group⟩ := moves error rfl
      have earlier := noCollision.of_record
      exact fail before (before.histories created earlier) earlier (ih earlier) found admitted runs fails
        graph group

end Runs

end World

/-! ### Exact heads -/

namespace CgkaOperationGraph

abbrev single (h : OpDigest) : ExtTreeSet OpDigest := (∅ : ExtTreeSet OpDigest).insert h

section Heads

variable {hash : SignedOp → OpDigest} {ops : List SignedOp} {root : SignedOp}
  {graph : CgkaOperationGraph}

theorem History.trans {h m : OpDigest} {heads : ExtTreeSet OpDigest}
    (first : History graph (single m) h) (second : History graph heads m) :
    History graph heads h := by
  induction first with
  | head member =>
    obtain rfl := (mem_insert_iff.mp member).resolve_right (by simp)
    exact second
  | before _ precedes ih => exact .before ih precedes

theorem Grown.exists_head (grown : Grown hash ops root graph) (sound : Sound hash graph)
    {h : OpDigest} (known : h ∈ graph.cgkaOps) :
    ∃ m ∈ graph.cgkaOpHeads, History graph (single m) h := by
  -- Climb along successors; the ranks of the operations are bounded.
  obtain ⟨rank, rises⟩ := sound.ranked
  have bounded (x : OpDigest) (member : x ∈ graph.cgkaOps) :
      rank x ≤ (graph.cgkaOps.keys.map rank).foldr max 0 :=
    List.le_max_of_le' 0 (List.mem_map_of_mem (ExtTreeMap.mem_keys.mpr member)) (Nat.le_refl _)
  induction steps : (graph.cgkaOps.keys.map rank).foldr max 0 - rank h
      using Nat.strong_induction_on generalizing h with
  | _ steps ih =>
    rcases grown.covered h known with isHead | ⟨h', op', found, follows⟩
    · exact ⟨h, isHead, .head (mem_insert_iff.mpr (.inl rfl))⟩
    · have known' : h' ∈ graph.cgkaOps := mem_iff_exists.mpr ⟨op', found⟩
      have := rises h' op' found h follows
      have := bounded h' known'
      obtain ⟨m, isHead, above⟩ := ih _ (by omega) known' rfl
      exact ⟨m, isHead, .before above (sound.mem_before.mpr ⟨op', found, follows⟩)⟩

theorem Grown.history_iff (grown : Grown hash ops root graph) (sound : Sound hash graph)
    (h : OpDigest) : History graph graph.cgkaOpHeads h ↔ h ∈ graph.cgkaOps := by
  constructor
  · exact sound.known_of_history grown.heads
  · intro known
    obtain ⟨m, isHead, below⟩ := grown.exists_head sound known
    exact below.trans (.head isHead)

theorem Causal.rank_le {rank : OpDigest → Nat} (causal : Causal hash graph)
    (rises : ∀ (h : OpDigest) (op : SignedOp), graph.cgkaOps[h]? = some op →
      ∀ p ∈ op.payload.predecessors, rank p < rank h) {h m : OpDigest}
    (below : History graph (single m) h) : rank h ≤ rank m := by
  induction below with
  | head member =>
    obtain rfl := (mem_insert_iff.mp member).resolve_right (by simp)
    exact Nat.le_refl _
  | before _ precedes ih =>
    obtain ⟨op, found, member⟩ := causal.sound.mem_before.mp precedes
    exact Nat.le_trans (Nat.le_of_lt (rises _ op found _ member)) ih

variable {op : SignedOp}

/-- **An operation that follows all the heads is new.** -/
theorem Grown.fresh (grown : Grown hash ops root graph) (causal : Causal hash graph)
    (distinct : Distinct hash (ops ++ [op]))
    (follows : ∀ h ∈ graph.cgkaOpHeads, h ∈ op.payload.predecessors) :
    hash op ∉ graph.cgkaOps := by
  intro known
  obtain ⟨op', found⟩ := mem_iff_exists.mp known
  obtain ⟨key, listed⟩ := grown.keyed _ op' found
  obtain rfl := distinct op' (List.mem_append_left _ listed) op (by simp) key
  obtain ⟨m, isHead, below⟩ := grown.exists_head causal.sound known
  obtain ⟨rank, rises⟩ := causal.ranked
  have := causal.rank_le rises below
  have := rises _ op' found m (follows m isHead)
  omega

theorem Grown.exact_insert {heads addHeads preds : ExtTreeSet OpDigest}
    (grown : Grown hash ops root graph) (exact : graph.Exact) (new : hash op ∉ graph.cgkaOps)
    (known : ∀ p ∈ op.payload.predecessors, p ∈ graph.cgkaOps)
    (mem_heads : ∀ h ∈ heads, h = hash op ∨ (h ∈ graph.cgkaOpHeads ∧ h ∉ op.payload.predecessors)) :
    Exact ⟨graph.cgkaOps.insert (hash op) op, graph.cgkaOpsPredecessors.insert (hash op) preds,
      heads, addHeads⟩ := by
  intro h isHead h' op' found follows
  replace found : (graph.cgkaOps.insert (hash op) op)[h']? = some op' := found
  rw [getElem?_insert_iff] at found
  rcases mem_heads h isHead with rfl | ⟨old, free⟩
  · split at found
    · obtain rfl := Option.some.inj found
      exact new (known _ follows)
    · exact new (grown.closed h' op' found _ follows)
  · split at found
    · obtain rfl := Option.some.inj found
      exact free follows
    · exact exact h old h' op' found follows

theorem Grown.exact_addLocalOp (grown : Grown hash ops root graph)
    (exact : graph.Exact) (new : hash op ∉ graph.cgkaOps)
    (preds : ∀ p, p ∈ op.payload.predecessors ↔ p ∈ graph.cgkaOpHeads) :
    (graph.addLocalOp hash op).Exact :=
  grown.exact_insert exact new (fun p member => grown.heads p ((preds p).mp member)) fun h isHead =>
    .inl ((mem_insert_iff.mp isHead).resolve_right (by simp))

theorem Grown.exact_addOp (grown : Grown hash ops root graph)
    (exact : graph.Exact) (new : hash op ∉ graph.cgkaOps)
    (known : ∀ p ∈ op.payload.predecessors, p ∈ graph.cgkaOps) :
    (graph.addOp hash op op.payload.predecessors).Exact := by
  refine grown.exact_insert exact new known fun h isHead => ?_
  rw [mem_insert_iff, mem_eraseAll, ExtTreeSet.mem_toList] at isHead
  exact isHead

/-- Does an operation of the graph follow `h`? -/
def follows (graph : CgkaOperationGraph) (h : OpDigest) : Bool :=
  graph.cgkaOps.toList.any fun entry => entry.2.payload.predecessors.contains h

/-- No head of a graph is followed in a fork. -/
def ahead (graph fork : CgkaOperationGraph) : Bool :=
  graph.cgkaOpHeads.toList.all fun h => !fork.follows h

variable {fork : CgkaOperationGraph}

theorem not_mem_of_ahead (isAhead : graph.ahead fork = true) {h h' : OpDigest}
    {op' : SignedOp} (isHead : h ∈ graph.cgkaOpHeads) (found : fork.cgkaOps[h']? = some op') :
    h ∉ op'.payload.predecessors := by
  intro before
  have none := List.all_eq_true.mp isAhead h (ExtTreeSet.mem_toList.mpr isHead)
  rw [Bool.not_eq_true'] at none
  exact List.any_eq_false.mp none (h', op') (ExtTreeMap.mem_toList_iff_getElem?_eq_some.mpr found)
    (ExtTreeSet.contains_iff_mem.mpr before)

/-- **A merge of two graphs of which neither is behind the other.** -/
theorem Exact.merge (grown : Grown hash ops root graph)
    (grown' : Grown hash ops root fork) (distinct : Distinct hash ops) (exact : graph.Exact)
    (exact' : fork.Exact) (here : graph.ahead fork = true) (there : fork.ahead graph = true) :
    (graph.merge fork).Exact := by
  intro h isHead h' op' found
  rcases mem_merge_heads.mp isHead with isHead | isHead <;>
    rcases (grown.getElem?_merge grown' distinct).mp found with found | found
  · exact exact h isHead h' op' found
  · exact not_mem_of_ahead here isHead found
  · exact not_mem_of_ahead there isHead found
  · exact exact' h isHead h' op' found

end Heads

end CgkaOperationGraph

namespace World

open CgkaOperationGraph

variable {S : Suite} {Cr : Type} [ContentRef Cr] {first : Cgka} {w : World Cr}

theorem Histories.causal (histories : w.Histories S first)
    (noCollision : w.NoCollision S) {graph : CgkaOperationGraph}
    (grown : Grown S.hashOp w.ops first.initAddOp graph) : Causal S.hashOp graph :=
  grown.causal histories.chronicle noCollision

/-- **The heads of all replicas are exact**, and in the graph of its author only an operation itself
follows its predecessors. -/
structure Heads (S : Suite) (w : World Cr) : Prop where
  exact : w.Everywhere fun cgka => cgka.opsGraph.Exact
  author : ∀ entry ∈ w.published, entry.2.opsGraph.cgkaOps[S.hashOp entry.1]? = some entry.1 ∧
    ∀ p ∈ entry.1.payload.predecessors, ∀ (h : OpDigest) (op : SignedOp),
      entry.2.opsGraph.cgkaOps[h]? = some op → p ∈ op.payload.predecessors → h = S.hashOp entry.1

def NoMerge (_ : World Cr) (_ : Cgka) (call : Call Cr) : Prop := ∀ fork, call ≠ .merge fork

/-- A merge is of two replicas of which neither is behind the other. -/
def KeepsHeads (w : World Cr) (cgka : Cgka) (call : Call Cr) : Prop :=
  ∀ i fork, call = .merge i → w.replicas[i]? = some fork →
    cgka.opsGraph.ahead fork.opsGraph = true ∧ fork.opsGraph.ahead cgka.opsGraph = true

theorem NoMerge.keepsHeads {cgka : Cgka} {call : Call Cr} (noMerge : NoMerge w cgka call) :
    KeepsHeads w cgka call := fun i _ isMerge _ => absurd isMerge (noMerge i)

theorem Reachable.heads {docId : TreeId} {ownerId : MemberId} {ownerPk : ShareKey} {signer : Signer}
    (created : Cgka.new S docId ownerId ownerPk signer = .ok first)
    {admits : World Cr → Cgka → Call Cr → Prop}
    (reached : Reachable S first admits w) (noCollision : w.NoCollision S)
    (keeps : ∀ w cgka call, admits w cgka call → KeepsHeads w cgka call) : w.Heads S := by
  refine reached.along created ?_ ?_ ?_ noCollision
  · obtain ⟨graph, free⟩ := new_graph created
    have exact : first.opsGraph.Exact := by
      intro h _ h' op' found follows
      rw [graph] at found
      have found : ((∅ : ExtTreeMap OpDigest SignedOp).insert (S.hashOp first.initAddOp)
        first.initAddOp)[h']? = some op' := found
      rw [getElem?_insert_iff] at found
      split at found
      · obtain rfl := Option.some.inj found
        exact free h follows
      · simp at found
    refine ⟨everywhere_start exact, fun entry member => ?_⟩
    rw [List.mem_singleton.mp member]
    refine ⟨?_, fun p isPred => absurd isPred (free p)⟩
    rw [graph]
    exact (getElem?_insert_iff ..).trans (if_pos rfl)
  · intro w replica cgka cgka' call computation output _ histories noCollision heads found admitted _
      _ moves copies
    have member := List.mem_of_getElem? found
    obtain ⟨grown, -⟩ := histories.grown.replicas cgka member
    have causal := histories.causal noCollision.of_record grown
    have exact := heads.exact.replicas cgka member
    have distinct : Distinct S.hashOp (w.ops ++ output.op.toList) := by
      rw [← ops_record w replica cgka' output]
      exact noCollision
    have exact' : cgka'.opsGraph.Exact := by
      rcases moves with step | ⟨-, i, fork, isMerge, isReplica, -, result, -, rfl⟩
      · obtain ⟨-, moved⟩ := step.graph_cases
        rcases moved with ⟨-, same⟩ | ⟨made, publishes, same, preds⟩ |
          ⟨-, taken, -, unknown, known, same⟩
        · rwa [same]
        · rw [same]
          rw [publishes] at distinct
          exact grown.exact_addLocalOp exact
            (grown.fresh causal distinct fun h isHead => (preds h).mpr isHead) preds
        · rw [same]
          refine grown.exact_addOp exact (fun known => ?_) (containsPredecessors_iff.mp known)
          have := ExtTreeMap.contains_iff_mem.mpr known
          exact absurd this (Bool.eq_false_iff.mp unknown)
      · have member' := List.mem_of_getElem? isReplica
        obtain ⟨here, there⟩ := keeps w cgka call admitted i fork isMerge isReplica
        exact exact.merge grown (histories.grown.replicas fork member').1 noCollision.of_record
          (heads.exact.replicas fork member') here there
    refine ⟨heads.exact.record exact' fun other copied => ?_, fun entry published => ?_⟩
    · obtain ⟨id, ownerSks, rfl⟩ := copies other copied
      exact exact'
    · rcases List.mem_append.mp published with old | new
      · exact heads.author entry old
      · obtain ⟨op, isOp, rfl⟩ := List.mem_map.mp new
        have moved := (moves.resolve_right fun merges => by simp [merges.1] at isOp).graph_cases.2
        rcases moved with ⟨none, -⟩ | ⟨made, publishes, same, preds⟩ | ⟨none, -⟩
        · rw [none] at isOp
          simp at isOp
        · rw [publishes] at isOp distinct
          obtain rfl := List.mem_singleton.mp isOp
          have lookup (h : OpDigest) : cgka'.opsGraph.cgkaOps[h]?
              = if h = S.hashOp op then some op else cgka.opsGraph.cgkaOps[h]? := by
            rw [same]
            exact getElem?_insert_iff ..
          refine ⟨by rw [lookup, if_pos rfl], fun p isPred h op' found' follows => ?_⟩
          rw [lookup] at found'
          split at found'
          · assumption
          · exact absurd follows (exact p ((preds p).mp isPred) h op' found')
        · rw [none] at isOp
          simp at isOp
  · intro w replica cgka cgka' call computation error _ histories noCollision heads found _ _ _ graph
      _
    have exact := heads.exact.replicas cgka (List.mem_of_getElem? found)
    refine ⟨heads.exact.record (graph ▸ exact) (by simp), fun entry published => ?_⟩
    rcases List.mem_append.mp published with old | new
    · exact heads.author entry old
    · simp at new

end World

end KeyhiveEval.Beekem
