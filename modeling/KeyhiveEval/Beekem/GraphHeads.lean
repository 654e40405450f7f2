/-
**The heads of operation graphs.**

Graphs grow by operations made on top of all heads, by operations of other graphs, and by merges of
forks. The first two keep the heads exact. A merge takes the heads of both sides together, also those
that the other side has left behind.

* `GraphWorld.run` — graphs that exchange operations, fork and merge.
* `GraphWorld.clean` — neither side of a merge is behind the other: no head of one is followed, and no add
  head of one is listed by an add, on the other. And no operation is added again after others have followed it.
* **`GraphWorld.graph_determined`** — in every run of clean calls the heads are exactly the operations that nothing
  follows, and a graph is determined by its operations.
* `merged_fork_restores_a_head` — a fork without any change of its own is merged.
-/

import KeyhiveEval.Beekem.History
import KeyhiveEval.Beekem.Sample

namespace KeyhiveEval.Beekem

open Std OrderedSets

def CgkaOperation.addPredecessorList : CgkaOperation → List OpDigest
  | .add _ _ _ _ addPredecessors _ => addPredecessors
  | _ => []

theorem CgkaOperation.addPredecessorList_of_not_isAdd {payload : CgkaOperation}
    (other : payload.isAdd = false) : payload.addPredecessorList = [] := by
  cases payload <;> simp [isAdd] at other <;> rfl

namespace CgkaOperationGraph

def AddExact (graph : CgkaOperationGraph) : Prop :=
  ∀ h, h ∈ graph.addHeads ↔
    (∃ op : SignedOp, graph.cgkaOps[h]? = some op ∧ op.payload.isAdd = true) ∧
      ∀ (h' : OpDigest) (op' : SignedOp), graph.cgkaOps[h']? = some op' →
        h ∉ op'.payload.addPredecessorList

def AddClosed (graph : CgkaOperationGraph) : Prop :=
  ∀ (h : OpDigest) (op : SignedOp), graph.cgkaOps[h]? = some op →
    ∀ p ∈ op.payload.addPredecessorList, p ∈ graph.cgkaOps

section Adds

variable {hash : SignedOp → OpDigest} {ops : List SignedOp} {root : SignedOp}
  {graph fork : CgkaOperationGraph}

variable {op : SignedOp} {preds : ExtTreeSet OpDigest}

/-- **An operation is added**, and the add heads are taken out that it lists. -/
theorem AddExact.insert {heads addHeads : ExtTreeSet OpDigest}
    (exact : graph.AddExact) (closed : graph.AddClosed) (new : hash op ∉ graph.cgkaOps)
    (known : ∀ p ∈ op.payload.addPredecessorList, p ∈ graph.cgkaOps)
    (mem_addHeads : ∀ h, h ∈ addHeads ↔ (h = hash op ∧ op.payload.isAdd = true) ∨
      (h ∈ graph.addHeads ∧ h ∉ op.payload.addPredecessorList)) :
    AddExact ⟨graph.cgkaOps.insert (hash op) op, graph.cgkaOpsPredecessors.insert (hash op) preds, heads,
      addHeads⟩ := by
  have lookup (h : OpDigest) : (graph.cgkaOps.insert (hash op) op)[h]?
      = if h = hash op then some op else graph.cgkaOps[h]? := getElem?_insert_iff
  intro h
  show h ∈ addHeads ↔ (∃ op' : SignedOp, (graph.cgkaOps.insert (hash op) op)[h]? = some op' ∧ _) ∧
    ∀ (h' : OpDigest) (op' : SignedOp), (graph.cgkaOps.insert (hash op) op)[h']? = some op' → _
  rw [mem_addHeads]
  by_cases here : h = hash op
  · subst here
    have absent : hash op ∉ graph.addHeads := fun isHead =>
      new (((exact _).mp isHead).1.elim fun old found => mem_iff_exists.mpr ⟨old, found.1⟩)
    have unlisted (h' : OpDigest) (op' : SignedOp)
        (found : (graph.cgkaOps.insert (hash op) op)[h']? = some op') :
        hash op ∉ op'.payload.addPredecessorList := by
      rw [lookup] at found
      split at found
      · rw [← Option.some.inj found]
        exact fun listed => new (known _ listed)
      · exact fun listed => new (closed h' op' found _ listed)
    simp only [lookup, if_pos, Option.some.injEq, absent, false_and, or_false, true_and]
    constructor
    · intro isAdd
      exact ⟨⟨op, rfl, isAdd⟩, fun h' op' found => unlisted h' op' (by rw [lookup]; exact found)⟩
    · rintro ⟨⟨_, rfl, isAdd⟩, -⟩
      exact isAdd
  · simp only [here, false_and, false_or]
    rw [exact h, lookup, if_neg here]
    constructor
    · rintro ⟨⟨isAdd, old⟩, free⟩
      refine ⟨isAdd, fun h' op' found => ?_⟩
      rw [lookup] at found
      split at found
      · rw [← Option.some.inj found]
        exact free
      · exact old h' op' found
    · rintro ⟨isAdd, all⟩
      refine ⟨⟨isAdd, fun h' op' found => all h' op' ?_⟩, all (hash op) op (by rw [lookup, if_pos rfl])⟩
      have other : h' ≠ hash op := fun same => new (mem_iff_exists.mpr ⟨op', same ▸ found⟩)
      rw [lookup, if_neg other]
      exact found

/-- An add that lists the add heads lists operations of the graph. -/
theorem AddExact.known_of_addHeads (exact : graph.AddExact)
    (adds : op.payload.isAdd = true → op.payload.addPredecessorList = graph.addHeads.toList) :
    ∀ p ∈ op.payload.addPredecessorList, p ∈ graph.cgkaOps := by
  intro p listed
  cases isAdd : op.payload.isAdd with
  | true =>
    rw [adds isAdd, ExtTreeSet.mem_toList] at listed
    exact ((exact p).mp listed).1.elim fun old found => mem_iff_exists.mpr ⟨old, found.1⟩
  | false => simp [CgkaOperation.addPredecessorList_of_not_isAdd isAdd] at listed

theorem AddExact.addLocalOp (exact : graph.AddExact) (closed : graph.AddClosed)
    (new : hash op ∉ graph.cgkaOps)
    (adds : op.payload.isAdd = true → op.payload.addPredecessorList = graph.addHeads.toList) :
    (graph.addLocalOp hash op).AddExact := by
  refine exact.insert closed new (exact.known_of_addHeads adds) fun h => ?_
  cases isAdd : op.payload.isAdd with
  | true =>
    rw [if_pos rfl, mem_insert_iff, adds isAdd, ExtTreeSet.mem_toList]
    simp
  | false =>
    rw [CgkaOperation.addPredecessorList_of_not_isAdd isAdd]
    simp

theorem AddExact.addOp (exact : graph.AddExact)
    (closed : graph.AddClosed) (new : hash op ∉ graph.cgkaOps)
    (known : ∀ p ∈ op.payload.addPredecessorList, p ∈ graph.cgkaOps) :
    (graph.addOp hash op preds).AddExact := by
  refine exact.insert closed new known fun h => ?_
  cases payload : op.payload with
  | add addedId pk leafIndex predecessors addPredecessors docId =>
    simp only [CgkaOperation.isAdd, CgkaOperation.addPredecessorList, and_true]
    rw [mem_insert_iff, mem_eraseAll]
  | remove | update => simp [CgkaOperation.isAdd, CgkaOperation.addPredecessorList]

/-- What an add lists was there before it, also when a new operation is added. -/
theorem AddClosed.insert {heads addHeads : ExtTreeSet OpDigest}
    (closed : graph.AddClosed) (known : ∀ p ∈ op.payload.addPredecessorList, p ∈ graph.cgkaOps) :
    AddClosed ⟨graph.cgkaOps.insert (hash op) op, graph.cgkaOpsPredecessors.insert (hash op) preds, heads,
      addHeads⟩ := by
  intro h op' found p listed
  replace found : (graph.cgkaOps.insert (hash op) op)[h]? = some op' := found
  refine mem_map_insert_iff.mpr (.inr ?_)
  rw [getElem?_insert_iff] at found
  split at found
  · obtain rfl := Option.some.inj found
    exact known p listed
  · exact closed h op' found p listed

end Adds

/-! ### Merging -/

def addFollows (graph : CgkaOperationGraph) (h : OpDigest) : Bool :=
  graph.cgkaOps.toList.any fun entry => entry.2.payload.addPredecessorList.contains h

/-- **The fork has left no head of the graph behind**, and no add head. -/
def upToDate (graph fork : CgkaOperationGraph) : Bool :=
  graph.ahead fork && graph.addHeads.toList.all fun h => !fork.addFollows h

section Merge

variable {hash : SignedOp → OpDigest} {ops : List SignedOp} {root : SignedOp}
  {graph fork : CgkaOperationGraph}

theorem not_addFollows {h : OpDigest} (free : graph.addFollows h = false) {h' : OpDigest}
    {op' : SignedOp} (found : graph.cgkaOps[h']? = some op') : h ∉ op'.payload.addPredecessorList := by
  intro listed
  have := List.any_eq_false.mp free (h', op') (ExtTreeMap.mem_toList_iff_getElem?_eq_some.mpr found)
  exact this (List.contains_iff_mem.mpr listed)

theorem upToDate_iff : graph.upToDate fork = true ↔
    graph.ahead fork = true ∧ ∀ h ∈ graph.addHeads, fork.addFollows h = false := by
  unfold upToDate
  simp [List.all_eq_true, ExtTreeSet.mem_toList]

theorem mem_merge_addHeads {h : OpDigest} :
    h ∈ (graph.merge fork).addHeads ↔ h ∈ graph.addHeads ∨ h ∈ fork.addHeads := by
  show h ∈ fork.addHeads.foldl _ _ ↔ _
  rw [ExtTreeSet.foldl_eq_foldl_toList, mem_foldl_insert, ExtTreeSet.mem_toList]

theorem AddExact.merge (grown : Grown hash ops root graph) (grown' : Grown hash ops root fork)
    (distinct : Distinct hash ops) (exact : graph.AddExact) (exact' : fork.AddExact)
    (here : graph.upToDate fork = true) (there : fork.upToDate graph = true) :
    (graph.merge fork).AddExact := by
  have lookup {h : OpDigest} {op : SignedOp} : (graph.merge fork).cgkaOps[h]? = some op ↔ _ ∨ _ :=
    grown.getElem?_merge grown' distinct
  intro h
  constructor
  · intro isHead
    rcases mem_merge_addHeads.mp isHead with isHead | isHead
    · obtain ⟨⟨op, found, isAdd⟩, free⟩ := (exact h).mp isHead
      refine ⟨⟨op, lookup.mpr (.inl found), isAdd⟩, fun h' op' found' => ?_⟩
      exact (lookup.mp found').elim (free h' op')
        (not_addFollows ((upToDate_iff.mp here).2 h isHead))
    · obtain ⟨⟨op, found, isAdd⟩, free⟩ := (exact' h).mp isHead
      refine ⟨⟨op, lookup.mpr (.inr found), isAdd⟩, fun h' op' found' => ?_⟩
      exact (lookup.mp found').elim (not_addFollows ((upToDate_iff.mp there).2 h isHead))
        (free h' op')
  · rintro ⟨⟨op, found, isAdd⟩, free⟩
    refine mem_merge_addHeads.mpr ((lookup.mp found).imp (fun found => ?_) fun found => ?_)
    · exact (exact h).mpr ⟨⟨op, found, isAdd⟩, fun h' op' found' => free h' op' (lookup.mpr (.inl found'))⟩
    · exact (exact' h).mpr ⟨⟨op, found, isAdd⟩, fun h' op' found' => free h' op' (lookup.mpr (.inr found'))⟩

theorem AddClosed.merge (grown : Grown hash ops root graph) (grown' : Grown hash ops root fork)
    (distinct : Distinct hash ops) (closed : graph.AddClosed) (closed' : fork.AddClosed) :
    (graph.merge fork).AddClosed := by
  have lookup {h : OpDigest} {op : SignedOp} : (graph.merge fork).cgkaOps[h]? = some op ↔ _ ∨ _ :=
    grown.getElem?_merge grown' distinct
  intro h op found p listed
  rcases lookup.mp found with found | found
  · obtain ⟨op', found'⟩ := mem_iff_exists.mp (closed h op found p listed)
    exact mem_iff_exists.mpr ⟨op', lookup.mpr (.inl found')⟩
  · obtain ⟨op', found'⟩ := mem_iff_exists.mp (closed' h op found p listed)
    exact mem_iff_exists.mpr ⟨op', lookup.mpr (.inr found')⟩

end Merge

/-! ### What precedes an operation -/

/-- **An operation precedes another** among those that were made. -/
inductive Precedes (hash : SignedOp → OpDigest) (made : List SignedOp) (op : SignedOp) :
    OpDigest → Prop
  | listed {p : OpDigest} (member : p ∈ op.payload.predecessors) : Precedes hash made op p
  | before {p : OpDigest} {op' : SignedOp} (above : Precedes hash made op (hash op'))
      (isMade : op' ∈ made) (member : p ∈ op'.payload.predecessors) : Precedes hash made op p

section Precedes

variable {hash : SignedOp → OpDigest} {made : List SignedOp} {root op : SignedOp}
  {graph : CgkaOperationGraph}

theorem Precedes.mono {made' : List SignedOp} {p : OpDigest} (precedes : Precedes hash made op p)
    (more : ∀ op ∈ made, op ∈ made') : Precedes hash made' op p := by
  induction precedes with
  | listed member => exact .listed member
  | before _ isMade member ih => exact .before ih (more _ isMade) member

/-- A graph with the predecessors of an operation has all that precedes it. -/
theorem Precedes.known {p : OpDigest} (precedes : Precedes hash made op p)
    (grown : Grown hash made root graph) (distinct : Distinct hash made)
    (known : ∀ p ∈ op.payload.predecessors, p ∈ graph.cgkaOps) : p ∈ graph.cgkaOps := by
  induction precedes with
  | listed member => exact known _ member
  | before _ isMade member ih =>
    obtain ⟨found, lookup⟩ := mem_iff_exists.mp ih
    obtain ⟨key, listed⟩ := grown.keyed _ _ lookup
    obtain rfl := distinct found listed _ isMade key
    exact grown.closed _ _ lookup _ member

theorem Precedes.followed {h p : OpDigest} (precedes : Precedes hash made op p)
    (grown : Grown hash made root graph) (distinct : Distinct hash made)
    (found : graph.cgkaOps[h]? = some op) :
    ∃ (h' : OpDigest) (op' : SignedOp), graph.cgkaOps[h']? = some op' ∧ p ∈ op'.payload.predecessors := by
  cases precedes with
  | listed member => exact ⟨h, op, found, member⟩
  | before above isMade member =>
    obtain ⟨op', lookup⟩ := mem_iff_exists.mp (above.known grown distinct (grown.closed h op found))
    obtain ⟨key, listed⟩ := grown.keyed _ _ lookup
    obtain rfl := distinct op' listed _ isMade key
    exact ⟨_, op', lookup, member⟩

/-- The whole graph precedes an operation that follows all heads. -/
theorem Grown.precedes (grown : Grown hash made root graph) (causal : Causal hash graph)
    (follows : ∀ h ∈ graph.cgkaOpHeads, h ∈ op.payload.predecessors) {p : OpDigest}
    (known : p ∈ graph.cgkaOps) : Precedes hash made op p := by
  obtain ⟨head, isHead, below⟩ := grown.exists_head causal.sound known
  induction below with
  | head member =>
    obtain rfl := (mem_insert_iff.mp member).resolve_right (by simp)
    exact .listed (follows _ isHead)
  | before above edge ih =>
    obtain ⟨op', found, member⟩ := causal.sound.mem_before.mp edge
    obtain ⟨key, isMade⟩ := grown.keyed _ op' found
    exact .before (key ▸ ih (mem_iff_exists.mpr ⟨op', found⟩)) isMade member

end Precedes

end CgkaOperationGraph

/-! ### Runs of graphs -/

/-- Graphs, and the operations that were made on them. -/
structure GraphWorld where
  made : List SignedOp
  graphs : List CgkaOperationGraph
deriving DecidableEq

inductive GraphCall
  | addLocalOp (op : SignedOp)
  | addOp (op : SignedOp)
  | fork
  | merge (fork : Nat)

/-- The first operation follows nothing. -/
def SignedOp.Opens (root : SignedOp) : Prop :=
  root.payload.predecessorList = [] ∧ root.payload.addPredecessorList = []

theorem SignedOp.Opens.free {root : SignedOp} (opens : root.Opens) (p : OpDigest) :
    p ∉ root.payload.predecessors := by
  intro member
  have : p ∈ root.payload.predecessorList := mem_ofList_iff.mp member
  simp [opens.1] at this

namespace GraphWorld

open CgkaOperationGraph

variable (hash : SignedOp → OpDigest)

def start (root : SignedOp) : GraphWorld := ⟨[root], [CgkaOperationGraph.new.addLocalOp hash root]⟩

/-- The next world, if the call is possible. An operation that is made lists all heads, and an add all add
heads; an operation is added where its predecessors are. -/
def next (w : GraphWorld) (i : Nat) : GraphCall → Option GraphWorld
  | .addLocalOp op => do
    let graph ← w.graphs[i]?
    guard (op.payload.predecessorList = graph.cgkaOpHeads.toList)
    guard (op.payload.isAdd → op.payload.addPredecessorList = graph.addHeads.toList)
    return ⟨w.made ++ [op], w.graphs.set i (graph.addLocalOp hash op)⟩
  | .addOp op => do
    let graph ← w.graphs[i]?
    guard (op ∈ w.made)
    guard (graph.containsPredecessors op.payload.predecessors)
    return ⟨w.made, w.graphs.set i (graph.addOp hash op op.payload.predecessors)⟩
  | .fork => do
    let graph ← w.graphs[i]?
    return ⟨w.made, w.graphs ++ [graph]⟩
  | .merge j => do
    let graph ← w.graphs[i]?
    let fork ← w.graphs[j]?
    return ⟨w.made, w.graphs.set i (graph.merge fork)⟩

/-- **A clean call.** An operation that the graph has already is not added once something follows it, and
neither side of a merge is behind the other. -/
def clean (w : GraphWorld) (i : Nat) : GraphCall → Bool
  | .addLocalOp _ => true
  | .addOp op => w.graphs[i]?.all fun graph =>
      !graph.containsOpHash (hash op) || graph.cgkaOpHeads.contains (hash op)
  | .fork => true
  | .merge j => w.graphs[i]?.all fun graph => w.graphs[j]?.all fun fork =>
      graph.upToDate fork && fork.upToDate graph

/-- The world after some calls, if each of them is possible and meets a condition. -/
def run (meets : GraphWorld → Nat → GraphCall → Bool) (w : GraphWorld) :
    List (Nat × GraphCall) → Option GraphWorld
  | [] => some w
  | (i, call) :: rest => do
    guard (meets w i call)
    let w' ← w.next hash i call
    w'.run meets rest

end GraphWorld

namespace CgkaOperationGraph

/-- **A graph with exact heads.** -/
structure Kept (hash : SignedOp → OpDigest) (made : List SignedOp) (root : SignedOp)
    (graph : CgkaOperationGraph) : Prop where
  grown : Grown hash made root graph
  exact : graph.Exact
  addExact : graph.AddExact
  addClosed : graph.AddClosed

section Kept

variable {hash : SignedOp → OpDigest} {made : List SignedOp} {root op : SignedOp}
  {graph graph' : CgkaOperationGraph}

theorem Kept.mono {made' : List SignedOp} (kept : Kept hash made root graph)
    (more : ∀ op ∈ made, op ∈ made') : Kept hash made' root graph :=
  { kept with grown := kept.grown.mono more }

theorem kept_new (opens : root.Opens) :
    Kept hash [root] root (CgkaOperationGraph.new.addLocalOp hash root) := by
  have noOps (h : OpDigest) : CgkaOperationGraph.new.cgkaOps[h]? = none := ExtTreeMap.getElem?_empty
  have emptyClosed : CgkaOperationGraph.new.AddClosed := fun h op found => by simp [noOps] at found
  have emptyExact : CgkaOperationGraph.new.AddExact := fun h => by simp [CgkaOperationGraph.new]
  have new : hash root ∉ CgkaOperationGraph.new.cgkaOps := fun member => by
    obtain ⟨op, found⟩ := mem_iff_exists.mp member
    simp [noOps] at found
  have grown : Grown hash [root] root _ := grown_new opens.free
  refine ⟨grown, fun h _ h' op' found => ?_, emptyExact.addLocalOp emptyClosed new fun _ => ?_,
    emptyClosed.insert fun p listed => ?_⟩
  · obtain rfl := List.mem_singleton.mp (grown.keyed h' op' found).2
    exact opens.free h
  · simp [opens.2, CgkaOperationGraph.new]
  · simp [opens.2] at listed

theorem Kept.addLocalOp (kept : Kept hash made root graph) (causal : Causal hash graph)
    (distinct : Distinct hash (made ++ [op]))
    (preds : op.payload.predecessorList = graph.cgkaOpHeads.toList)
    (adds : op.payload.isAdd = true → op.payload.addPredecessorList = graph.addHeads.toList) :
    Kept hash (made ++ [op]) root (graph.addLocalOp hash op) := by
  have mem_preds (p : OpDigest) : p ∈ op.payload.predecessors ↔ p ∈ graph.cgkaOpHeads := by
    unfold CgkaOperation.predecessors
    rw [preds, mem_ofList_iff, ExtTreeSet.mem_toList]
  have new := kept.grown.fresh causal distinct fun h isHead => (mem_preds h).mpr isHead
  exact ⟨kept.grown.addLocalOp distinct mem_preds, kept.grown.exact_addLocalOp kept.exact new mem_preds,
    kept.addExact.addLocalOp kept.addClosed new adds,
    kept.addClosed.insert (kept.addExact.known_of_addHeads adds)⟩

theorem Kept.addOp_again (kept : Kept hash made root graph) (distinct : Distinct hash made)
    (isMade : op ∈ made) (isHead : hash op ∈ graph.cgkaOpHeads)
    (adds : ∀ op' ∈ made, ∀ p ∈ op'.payload.addPredecessorList, Precedes hash made op' p) :
    graph.addOp hash op op.payload.predecessors = graph := by
  have found : graph.cgkaOps[hash op]? = some op := by
    obtain ⟨old, found⟩ := mem_iff_exists.mp (kept.grown.heads _ isHead)
    obtain ⟨key, listed⟩ := kept.grown.keyed _ _ found
    rw [found, distinct old listed op isMade key]
  have unlisted (h : OpDigest) (op' : SignedOp) (found' : graph.cgkaOps[h]? = some op') :
      hash op ∉ op'.payload.addPredecessorList := by
    intro listed
    obtain ⟨h'', op'', found'', follows⟩ :=
      (adds op' (kept.grown.keyed _ _ found').2 _ listed).followed kept.grown distinct found'
    exact kept.exact _ isHead h'' op'' found'' follows
  refine CgkaOperationGraph.mk.injEq .. ▸ ⟨ExtTreeMap.ext_getElem? fun h => ?_,
    ExtTreeMap.ext_getElem? fun h => ?_, ExtTreeSet.ext_mem fun h => ?_, ?_⟩
  · rw [getElem?_insert_iff]
    split
    · rename_i same
      rw [same, found]
    · rfl
  · rw [getElem?_insert_iff]
    split
    · rename_i same
      rw [same, kept.grown.preds, found]
      rfl
    · rfl
  · rw [mem_insert_iff, mem_eraseAll, ExtTreeSet.mem_toList]
    constructor
    · rintro (rfl | ⟨old, -⟩)
      · exact isHead
      · exact old
    · exact fun old => .inr ⟨old, kept.exact h old _ op found⟩
  · cases payload : op.payload with
    | add addedId pk leafIndex predecessors addPredecessors docId =>
      refine ExtTreeSet.ext_mem fun h => ?_
      rw [mem_insert_iff, mem_eraseAll]
      have isAddHead : hash op ∈ graph.addHeads :=
        (kept.addExact _).mpr ⟨⟨op, found, by rw [payload]; rfl⟩, unlisted⟩
      have free (old : h ∈ graph.addHeads) : h ∉ addPredecessors := by
        have := ((kept.addExact h).mp old).2 _ op found
        rwa [payload] at this
      constructor
      · rintro (rfl | ⟨old, -⟩)
        · exact isAddHead
        · exact old
      · exact fun old => .inr ⟨old, free old⟩
    | remove | update => rfl

theorem Kept.addOp (kept : Kept hash made root graph) (distinct : Distinct hash made) (isMade : op ∈ made)
    (known : ∀ p ∈ op.payload.predecessors, p ∈ graph.cgkaOps)
    (adds : ∀ op' ∈ made, ∀ p ∈ op'.payload.addPredecessorList, Precedes hash made op' p)
    (clean : hash op ∈ graph.cgkaOps → hash op ∈ graph.cgkaOpHeads) :
    Kept hash made root (graph.addOp hash op op.payload.predecessors) := by
  by_cases held : hash op ∈ graph.cgkaOps
  · rw [kept.addOp_again distinct isMade (clean held) adds]
    exact kept
  · have knownAdds := fun p listed => (adds op isMade p listed).known kept.grown distinct known
    exact ⟨kept.grown.addOp distinct isMade known, kept.grown.exact_addOp kept.exact held known,
      kept.addExact.addOp kept.addClosed held knownAdds, kept.addClosed.insert knownAdds⟩

theorem Kept.merge (kept : Kept hash made root graph) (kept' : Kept hash made root graph')
    (distinct : Distinct hash made) (here : graph.upToDate graph' = true)
    (there : graph'.upToDate graph = true) : Kept hash made root (graph.merge graph') :=
  ⟨kept.grown.merge kept'.grown distinct,
    kept.exact.merge kept.grown kept'.grown distinct kept'.exact (upToDate_iff.mp here).1
      (upToDate_iff.mp there).1,
    AddExact.merge kept.grown kept'.grown distinct kept.addExact kept'.addExact here there,
    AddClosed.merge kept.grown kept'.grown distinct kept.addClosed kept'.addClosed⟩

theorem Kept.isHead_iff (kept : Kept hash made root graph) (h : OpDigest) :
    h ∈ graph.cgkaOpHeads ↔ h ∈ graph.cgkaOps ∧
      ∀ (h' : OpDigest) (op' : SignedOp), graph.cgkaOps[h']? = some op' →
        h ∉ op'.payload.predecessors := by
  refine ⟨fun isHead => ⟨kept.grown.heads h isHead, kept.exact h isHead⟩, fun ⟨known, free⟩ => ?_⟩
  refine (kept.grown.covered h known).resolve_right ?_
  rintro ⟨h', op', found, follows⟩
  exact free h' op' found follows

/-- **The heads are the operations that are the predecessor of no other.** -/
theorem Kept.mem_heads_iff (kept : Kept hash made root graph) (causal : Causal hash graph) (h : OpDigest) :
    h ∈ graph.cgkaOpHeads ↔ h ∈ graph.cgkaOps ∧
      ∀ (h' : OpDigest) (preds : ExtTreeSet OpDigest), graph.cgkaOpsPredecessors[h']? = some preds →
        h' ≠ h → h ∉ preds := by
  rw [kept.isHead_iff]
  refine and_congr_right fun _ => ⟨fun free h' preds found _ => ?_, fun free h' op' found follows => ?_⟩
  · rw [kept.grown.preds, Option.map_eq_some_iff] at found
    obtain ⟨op', found, rfl⟩ := found
    exact free h' op' found
  · obtain ⟨rank, rises⟩ := causal.ranked
    refine free h' op'.payload.predecessors (by rw [kept.grown.preds, found]; rfl) ?_ follows
    rintro rfl
    exact Nat.lt_irrefl _ (rises h' op' found h' follows)

/-- **A graph is determined by its operations.** -/
theorem Kept.eq_of_ops {made' : List SignedOp} {root' : SignedOp} (kept : Kept hash made root graph)
    (kept' : Kept hash made' root' graph') (same : graph.cgkaOps = graph'.cgkaOps) : graph = graph' := by
  refine CgkaOperationGraph.mk.injEq .. ▸ ⟨same, ExtTreeMap.ext_getElem? fun h => ?_,
    ExtTreeSet.ext_mem fun h => ?_, ExtTreeSet.ext_mem fun h => ?_⟩
  · rw [kept.grown.preds, kept'.grown.preds, same]
  · rw [kept.isHead_iff, kept'.isHead_iff, same]
  · rw [kept.addExact, kept'.addExact, same]

end Kept

end CgkaOperationGraph

namespace GraphWorld

open CgkaOperationGraph

section Runs

variable {hash : SignedOp → OpDigest} {root : SignedOp} {w w' : GraphWorld} {i : Nat} {call : GraphCall}

/-- **Worlds in which all graphs have exact heads.** -/
structure Tidy (hash : SignedOp → OpDigest) (root : SignedOp) (w : GraphWorld) : Prop where
  chronicle : Chronicle hash w.made root
  adds : ∀ op ∈ w.made, ∀ p ∈ op.payload.addPredecessorList, Precedes hash w.made op p
  graphs : ∀ graph ∈ w.graphs, Kept hash w.made root graph

theorem next_cases (after : w.next hash i call = some w') :
    ∃ graph, w.graphs[i]? = some graph ∧
      ((∃ op, call = .addLocalOp op ∧ op.payload.predecessorList = graph.cgkaOpHeads.toList ∧
          (op.payload.isAdd = true → op.payload.addPredecessorList = graph.addHeads.toList) ∧
          w' = ⟨w.made ++ [op], w.graphs.set i (graph.addLocalOp hash op)⟩) ∨
        (∃ op, call = .addOp op ∧ op ∈ w.made ∧
          graph.containsPredecessors op.payload.predecessors = true ∧
          w' = ⟨w.made, w.graphs.set i (graph.addOp hash op op.payload.predecessors)⟩) ∨
        (call = .fork ∧ w' = ⟨w.made, w.graphs ++ [graph]⟩) ∨
        ∃ j fork, call = .merge j ∧ w.graphs[j]? = some fork ∧
          w' = ⟨w.made, w.graphs.set i (graph.merge fork)⟩) := by
  cases call with
  | addLocalOp op =>
    obtain ⟨graph, found, rest⟩ := Option.bind_eq_some_iff.mp after
    obtain ⟨_, preds, rest⟩ := Option.bind_eq_some_iff.mp rest
    obtain ⟨_, adds, rest⟩ := Option.bind_eq_some_iff.mp rest
    rw [Option.guard_eq_some'] at preds adds
    exact ⟨graph, found, .inl ⟨op, rfl, preds, adds, (Option.some.inj rest).symm⟩⟩
  | addOp op =>
    obtain ⟨graph, found, rest⟩ := Option.bind_eq_some_iff.mp after
    obtain ⟨_, isMade, rest⟩ := Option.bind_eq_some_iff.mp rest
    obtain ⟨_, known, rest⟩ := Option.bind_eq_some_iff.mp rest
    rw [Option.guard_eq_some'] at isMade known
    exact ⟨graph, found, .inr (.inl ⟨op, rfl, isMade, known, (Option.some.inj rest).symm⟩)⟩
  | fork =>
    obtain ⟨graph, found, rest⟩ := Option.bind_eq_some_iff.mp after
    exact ⟨graph, found, .inr (.inr (.inl ⟨rfl, (Option.some.inj rest).symm⟩))⟩
  | merge j =>
    obtain ⟨graph, found, rest⟩ := Option.bind_eq_some_iff.mp after
    obtain ⟨fork, found', rest⟩ := Option.bind_eq_some_iff.mp rest
    exact ⟨graph, found, .inr (.inr (.inr ⟨j, fork, rfl, found', (Option.some.inj rest).symm⟩))⟩

theorem Tidy.set {graph : CgkaOperationGraph} (tidy : w.Tidy hash root)
    (kept : Kept hash w.made root graph) : Tidy hash root ⟨w.made, w.graphs.set i graph⟩ :=
  ⟨tidy.chronicle, tidy.adds, fun other member => (List.mem_or_eq_of_mem_set member).elim
    (tidy.graphs other) fun same => same ▸ kept⟩

theorem Tidy.next (tidy : w.Tidy hash root) (distinct : Distinct hash w'.made)
    (clean : w.clean hash i call = true) (after : w.next hash i call = some w') : w'.Tidy hash root := by
  obtain ⟨graph, found, cases'⟩ := next_cases after
  have kept := tidy.graphs graph (List.mem_of_getElem? found)
  rcases cases' with ⟨op, rfl, preds, adds, rfl⟩ | ⟨op, rfl, isMade, known, rfl⟩ | ⟨rfl, rfl⟩ |
    ⟨j, fork, rfl, found', rfl⟩
  · have causal := kept.grown.causal tidy.chronicle distinct.left
    have mem_preds (p : OpDigest) : p ∈ op.payload.predecessors ↔ p ∈ graph.cgkaOpHeads := by
      unfold CgkaOperation.predecessors
      rw [preds, mem_ofList_iff, ExtTreeSet.mem_toList]
    have more : ∀ op' ∈ w.made, op' ∈ w.made ++ [op] := fun _ => List.mem_append_left _
    refine ⟨tidy.chronicle.append (fun p listed => ?_) ?_, fun op' member p listed => ?_,
      fun other member => ?_⟩
    · obtain ⟨op', found'⟩ := mem_iff_exists.mp (kept.grown.heads p ((mem_preds p).mp listed))
      exact ⟨op', (kept.grown.keyed p op' found').2, (kept.grown.keyed p op' found').1⟩
    · obtain ⟨h, isHead⟩ := kept.grown.nonempty
      exact ⟨h, (mem_preds h).mpr isHead⟩
    · rcases List.mem_append.mp member with old | here
      · exact (tidy.adds op' old p listed).mono more
      · obtain rfl := List.mem_singleton.mp here
        exact (kept.grown.precedes causal (fun h isHead => (mem_preds h).mpr isHead)
          (kept.addExact.known_of_addHeads adds p listed)).mono more
    · rcases List.mem_or_eq_of_mem_set member with old | rfl
      · exact (tidy.graphs other old).mono more
      · exact kept.addLocalOp causal distinct preds adds
  · refine tidy.set (kept.addOp distinct isMade (containsPredecessors_iff.mp known) tidy.adds ?_)
    simp only [GraphWorld.clean, found, Option.all_some, Bool.or_eq_true, Bool.not_eq_true',
      containsOpHash] at clean
    refine fun held => ExtTreeSet.contains_iff_mem.mp (clean.resolve_left fun absent => ?_)
    rw [ExtTreeMap.contains_iff_mem.mpr held] at absent
    simp at absent
  · refine { tidy with graphs := fun other member => ?_ }
    exact (List.mem_append.mp member).elim (tidy.graphs other)
      fun here => List.mem_singleton.mp here ▸ kept
  · simp only [GraphWorld.clean, found, found', Option.all_some, Bool.and_eq_true] at clean
    exact tidy.set (kept.merge (tidy.graphs fork (List.mem_of_getElem? found')) distinct clean.1 clean.2)

theorem made_of_next (after : w.next hash i call = some w') : ∃ more, w'.made = w.made ++ more := by
  obtain ⟨graph, -, cases'⟩ := next_cases after
  rcases cases' with ⟨op, -, -, -, rfl⟩ | ⟨op, -, -, -, rfl⟩ | ⟨-, rfl⟩ | ⟨j, fork, -, -, rfl⟩
  · exact ⟨[op], rfl⟩
  all_goals exact ⟨[], (List.append_nil _).symm⟩

variable {meets : GraphWorld → Nat → GraphCall → Bool}

theorem run_cons {rest : List (Nat × GraphCall)}
    (runs : w.run hash meets ((i, call) :: rest) = some w') :
    meets w i call = true ∧ ∃ mid, w.next hash i call = some mid ∧ mid.run hash meets rest = some w' := by
  obtain ⟨_, met, runs⟩ := Option.bind_eq_some_iff.mp runs
  obtain ⟨mid, after, runs⟩ := Option.bind_eq_some_iff.mp runs
  rw [Option.guard_eq_some'] at met
  exact ⟨met, mid, after, runs⟩

variable {calls : List (Nat × GraphCall)}

theorem made_of_run
    (runs : w.run hash meets calls = some w') : ∃ more, w'.made = w.made ++ more := by
  induction calls generalizing w with
  | nil => exact ⟨[], by rw [← Option.some.inj runs, List.append_nil]⟩
  | cons entry rest ih =>
    obtain ⟨-, mid, after, runs⟩ := run_cons runs
    obtain ⟨more, here⟩ := made_of_next after
    obtain ⟨later, there⟩ := ih runs
    exact ⟨more ++ later, by rw [there, here, List.append_assoc]⟩

theorem tidy_start (opens : root.Opens) : (start hash root).Tidy hash root := by
  have kept : Kept hash [root] root _ := kept_new opens
  refine ⟨chronicle_new opens.free, fun op member p listed => ?_, fun graph member => ?_⟩
  · rw [List.mem_singleton.mp member, opens.2] at listed
    simp at listed
  · exact List.mem_singleton.mp member ▸ kept

theorem Tidy.run (tidy : w.Tidy hash root)
    (runs : w.run hash (clean hash) calls = some w') (distinct : Distinct hash w'.made) :
    w'.Tidy hash root := by
  induction calls generalizing w with
  | nil => exact Option.some.inj runs ▸ tidy
  | cons entry rest ih =>
    obtain ⟨isClean, mid, after, runs⟩ := run_cons runs
    obtain ⟨more, made⟩ := made_of_run runs
    exact ih (tidy.next (made ▸ distinct).left isClean after) runs

/-- **Exact heads.** In a run of clean calls the heads of every graph are the operations that no other
operation follows, and two graphs with the same operations are the same, also when they come from
different runs. -/
theorem graph_determined {hash : SignedOp → OpDigest} {root root' : SignedOp} (opens : root.Opens)
    (opens' : root'.Opens) {calls calls' : List (Nat × GraphCall)} {w w' : GraphWorld}
    (runs : (start hash root).run hash (clean hash) calls = some w)
    (runs' : (start hash root').run hash (clean hash) calls' = some w')
    (distinct : Distinct hash w.made) (distinct' : Distinct hash w'.made)
    {graph graph' : CgkaOperationGraph} (member : graph ∈ w.graphs) (member' : graph' ∈ w'.graphs) :
    (∀ h : OpDigest, h ∈ graph.cgkaOpHeads ↔ h ∈ graph.cgkaOps ∧
      ∀ (h' : OpDigest) (preds : ExtTreeSet OpDigest), graph.cgkaOpsPredecessors[h']? = some preds →
        h' ≠ h → h ∉ preds) ∧
      (graph.cgkaOps = graph'.cgkaOps → graph = graph') := by
  have tidy := (tidy_start opens).run runs distinct
  have tidy' := (tidy_start opens').run runs' distinct'
  have kept := tidy.graphs graph member
  exact ⟨kept.mem_heads_iff (kept.grown.causal tidy.chronicle distinct),
    kept.eq_of_ops (tidy'.graphs graph' member')⟩

end Runs

end GraphWorld

namespace Sample

open CgkaOperationGraph

/-- The add that opens the graph, with the digest 1. -/
def rootOp : SignedOp := ⟨.initAdd ⟨0⟩ (member 1) (key 16), ⟨0⟩, 1⟩

def removal (n : Nat) (predecessors : List OpDigest) : SignedOp :=
  ⟨.remove (member 2) 1 [] predecessors ⟨0⟩, ⟨0⟩, BitVec.ofNat 512 n⟩

def forks : List (Nat × GraphCall) :=
  [(0, .fork), (0, .addLocalOp (removal 2 [⟨1⟩])), (1, .addLocalOp (removal 3 [⟨1⟩]))]

/-- The world after calls that meet a condition. -/
def graphs (meets : GraphWorld → Nat → GraphCall → Bool) (calls : List (Nat × GraphCall)) :
    GraphWorld :=
  ((GraphWorld.start suite.hashOp rootOp).run suite.hashOp meets calls).getD ⟨[], []⟩

def graphAt (w : GraphWorld) (i : Nat) : CgkaOperationGraph := w.graphs.getD i .new

def mergedForks : GraphWorld := graphs (GraphWorld.clean suite.hashOp) (forks ++ [(0, .merge 1)])

/-- The operation of one fork is added to the other. -/
def deliveredForks : GraphWorld :=
  graphs (GraphWorld.clean suite.hashOp) (forks ++ [(1, .addOp (removal 2 [⟨1⟩]))])

/-- A merge and a delivery give the same graph. -/
theorem merged_eq_delivered :
    (graphAt mergedForks 0).cgkaOpHeads.toList = [⟨2⟩, ⟨3⟩] ∧
      graphAt mergedForks 0 = graphAt deliveredForks 1 := by
  have runs : (GraphWorld.start suite.hashOp rootOp).run suite.hashOp (GraphWorld.clean suite.hashOp)
      (forks ++ [(0, .merge 1)]) = some mergedForks := by decide +kernel
  have runs' : (GraphWorld.start suite.hashOp rootOp).run suite.hashOp (GraphWorld.clean suite.hashOp)
      (forks ++ [(1, .addOp (removal 2 [⟨1⟩]))]) = some deliveredForks := by decide +kernel
  refine ⟨by decide +kernel, ?_⟩
  exact (GraphWorld.graph_determined ⟨rfl, rfl⟩ ⟨rfl, rfl⟩ runs runs' (by decide +kernel)
    (by decide +kernel) (by decide +kernel) (by decide +kernel)).2 (by decide +kernel)

/-- A fork that has not changed is merged into a graph that has. -/
def staleMerge : List (Nat × GraphCall) :=
  [(0, .fork), (0, .addLocalOp (removal 2 [⟨1⟩])), (0, .merge 1)]

/-- **A fork without any change of its own is merged**, and the operation that it knows is a head again
although another one follows it. -/
theorem merged_fork_restores_a_head :
    ∃ (w : GraphWorld) (graph : CgkaOperationGraph),
      (GraphWorld.start suite.hashOp rootOp).run suite.hashOp (fun _ _ _ => true) staleMerge = some w ∧
      Distinct suite.hashOp w.made ∧ graph ∈ w.graphs ∧
      (⟨1⟩ : OpDigest) ∈ graph.cgkaOpsPredecessors.getD ⟨2⟩ ∅ ∧
      (⟨1⟩ : OpDigest) ∈ graph.cgkaOpHeads :=
  ⟨graphs (fun _ _ _ => true) staleMerge, graphAt (graphs (fun _ _ _ => true) staleMerge) 0,
    by decide +kernel, by decide +kernel, by decide +kernel, by decide +kernel, by decide +kernel⟩

end Sample

end KeyhiveEval.Beekem
