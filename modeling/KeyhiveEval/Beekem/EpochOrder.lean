/-
**What the replay order contains.**

A replay applies the epochs that `topsort_graph` returns. Whatever the order in which the hash sets of the graph are
walked,

* a graph with one first operation is listed in full, and what stands in an earlier epoch is an ancestor of what stands
  in a later one (`Causal.topsortForHeads_decomposes`);
* an operation that follows exactly the heads is appended as an epoch of its own (`Reachable.topsort_covering`);
* a replica that receives whatever it is sent keeps each operation at most once, but it loses the ones that neither
  follow an operation nor are followed by one as soon as the graph has an edge (`Receives.topsort_complete_iff`):
  `topsort_for_heads` registers an operation with the sort only when it walks an edge of it.
-/

import KeyhiveEval.Beekem.GraphHeads
import KeyhiveEval.Beekem.Incremental

namespace KeyhiveEval.Beekem

open Std Stateful OrderedSets

/-! ### The epochs of a causal graph -/

namespace CgkaOperationGraph

variable {hash : SignedOp → OpDigest} {ops : List SignedOp} {root : SignedOp} {graph : CgkaOperationGraph}

/-- **The epochs of the ancestors of some heads**, whatever the order in which sets are walked. -/
theorem Causal.topsortForHeads_decomposes (causal : Causal hash graph) {heads : ExtTreeSet OpDigest}
    (known : ∀ h ∈ heads, h ∈ graph.cgkaOps) (some : ∃ head, head ∈ heads) (order : IterOrder) :
    ∃ epochs, graph.topsortForHeadsIn order heads = .ok epochs ∧ graph.topsortForHeads heads = .ok epochs ∧
      Decomposed hash graph {h | History graph heads h} epochs := by
  obtain ⟨head, member⟩ := some
  obtain ⟨epochs, isEpochs, sorts⟩ := causal.topsortForHeadsIn_epochs known order member
  have sorts' := (causal.topsortForHeadsIn_order known order member).symm.trans sorts
  refine ⟨_, sorts, sorts', causal.sound.decomposed (fun h isHistory => ?_) (fun h isHistory p before => ?_)
    isEpochs⟩
  · exact causal.sound.known_of_history known isHistory
  · exact .before isHistory before

end CgkaOperationGraph

namespace Sample

open CgkaOperationGraph

/-- Two concurrent operations share the second epoch. -/
theorem forks_decompose :
    (graphAt deliveredForks 1).topsortForHeads (graphAt deliveredForks 1).cgkaOpHeads
        = .ok [[rootOp], [removal 2 [⟨1⟩], removal 3 [⟨1⟩]]] ∧
      Decomposed suite.hashOp (graphAt deliveredForks 1)
        {h | History (graphAt deliveredForks 1) (graphAt deliveredForks 1).cgkaOpHeads h}
        [[rootOp], [removal 2 [⟨1⟩], removal 3 [⟨1⟩]]] := by
  have runs : (GraphWorld.start suite.hashOp rootOp).run suite.hashOp (GraphWorld.clean suite.hashOp)
      (forks ++ [(1, .addOp (removal 2 [⟨1⟩]))]) = some deliveredForks := by decide +kernel
  have distinct : Distinct suite.hashOp deliveredForks.made := by decide +kernel
  have tidy := (GraphWorld.tidy_start ⟨rfl, rfl⟩).run runs distinct
  have kept := tidy.graphs (graphAt deliveredForks 1) (by decide +kernel)
  have causal := kept.grown.causal tidy.chronicle distinct
  have sorts : (graphAt deliveredForks 1).topsortForHeads (graphAt deliveredForks 1).cgkaOpHeads
      = .ok [[rootOp], [removal 2 [⟨1⟩], removal 3 [⟨1⟩]]] := by decide +kernel
  obtain ⟨epochs, -, again, decomposed⟩ :=
    causal.topsortForHeads_decomposes kept.grown.heads kept.grown.nonempty .sorted
  obtain rfl := Except.ok.inj (sorts.symm.trans again)
  exact ⟨sorts, decomposed⟩

end Sample

/-! ### An operation that follows exactly the heads -/

namespace CgkaOperationGraph

variable {hash : SignedOp → OpDigest} {ops : List SignedOp} {root : SignedOp} {graph graph' : CgkaOperationGraph}

/-- **The epochs do not depend on the order in which sets are walked.** -/
theorem Grown.topsortGraphIn_eq (grown : Grown hash ops root graph) (causal : Causal hash graph) (order : IterOrder) :
    graph.topsortGraphIn order = graph.topsortGraph := by
  obtain ⟨head, member⟩ := grown.nonempty
  exact causal.topsortForHeadsIn_order grown.heads order member

theorem Next.topsortGraphIn_next {op : SignedOp} {ops' : List SignedOp} (next : Next hash graph op graph')
    (grown : Grown hash ops root graph) (causal : Causal hash graph) (grown' : Grown hash ops' root graph')
    (causal' : Causal hash graph') (free : ∀ p, p ∉ root.payload.predecessors)
    (tops : ∀ p ∈ op.payload.predecessors, ∀ (h : OpDigest) (op' : SignedOp),
      graph.cgkaOps[h]? = some op' → p ∉ op'.payload.predecessors) (order order' : IterOrder) :
    ∃ epochs, graph.topsortGraphIn order = .ok epochs ∧ graph'.topsortGraphIn order' = .ok (epochs ++ [[op]]) := by
  obtain ⟨rest, sorted⟩ := grown.sorted causal free
  have sorted' := next.sorted_next grown causal grown' causal' free tops sorted
  refine ⟨[root] :: rest, ?_, ?_⟩
  · rw [grown.topsortGraphIn_eq causal, sorted.sorts]
  · rw [grown'.topsortGraphIn_eq causal', sorted'.sorts, List.cons_append]

end CgkaOperationGraph

namespace World

open CgkaOperationGraph

variable {S : Suite} {Cr : Type} [ContentRef Cr] {docId : TreeId} {ownerId : MemberId} {ownerPk : ShareKey}
  {signer : Signer} {first : Cgka} {w : World Cr}

/-- **An operation that follows exactly the heads of a replica is the last epoch**, after the epochs that were there,
whether the replica makes it or receives it. -/
theorem Reachable.topsort_covering (created : Cgka.new S docId ownerId ownerPk signer = .ok first)
    (reached : Reachable S first KeepsHeads w) {op : SignedOp} (distinct : Distinct S.hashOp (w.ops ++ [op]))
    {cgka : Cgka} (isReplica : cgka ∈ w.replicas)
    (covers : ∀ h, h ∈ op.payload.predecessors ↔ h ∈ cgka.opsGraph.cgkaOpHeads) (order order' : IterOrder) :
    ∃ epochs, cgka.opsGraph.topsortGraphIn order = .ok epochs ∧
      (cgka.opsGraph.addOp S.hashOp op op.payload.predecessors).topsortGraphIn order' = .ok (epochs ++ [[op]]) ∧
      (cgka.opsGraph.addLocalOp S.hashOp op).topsortGraphIn order' = .ok (epochs ++ [[op]]) := by
  have histories := reached.histories created distinct.left
  have exact := (reached.heads created distinct.left fun _ _ _ keeps => keeps).exact.replicas cgka isReplica
  obtain ⟨grown, -⟩ := histories.grown.replicas cgka isReplica
  have causal := histories.causal distinct.left grown
  have known (p : OpDigest) (isPred : p ∈ op.payload.predecessors) : p ∈ cgka.opsGraph.cgkaOps :=
    grown.heads p ((covers p).mp isPred)
  have chronicle : Chronicle S.hashOp (w.ops ++ [op]) first.initAddOp := by
    refine histories.chronicle.append (fun p isPred => ?_) ?_
    · obtain ⟨earlier, found⟩ := mem_iff_exists.mp (known p isPred)
      exact ⟨earlier, (grown.keyed p earlier found).2, (grown.keyed p earlier found).1⟩
    · obtain ⟨h, isHead⟩ := grown.nonempty
      exact ⟨h, (covers h).mpr isHead⟩
  have follows (h : OpDigest) (isHead : h ∈ cgka.opsGraph.cgkaOpHeads) : h ∈ op.payload.predecessors :=
    (covers h).mpr isHead
  have new := grown.fresh causal distinct follows
  have tops (p : OpDigest) (isPred : p ∈ op.payload.predecessors) := exact p ((covers p).mp isPred)
  have received := (grown.mono fun _ => List.mem_append_left [op]).addOp distinct (by simp) known
  have made := grown.addLocalOp distinct covers
  obtain ⟨epochs, sorts, sortsReceived⟩ := (next_addOp new follows).topsortGraphIn_next grown causal received
    (received.causal chronicle distinct) chronicle.free tops order order'
  obtain ⟨epochs', sorts', sortsMade⟩ := (next_addLocalOp new follows).topsortGraphIn_next grown causal made
    (made.causal chronicle distinct) chronicle.free tops order order'
  obtain rfl := Except.ok.inj (sorts.symm.trans sorts')
  exact ⟨epochs, sorts, sortsReceived, sortsMade⟩

end World

namespace Sample

open CgkaOperationGraph

/-- Two members change the group at the same time, and one of them gets both changes. -/
def crossing : List (Nat × Call Unit) :=
  [(0, .add (member 2) (key 0x20) (signer 2)), (0, .withNewOwner (member 2) (secrets [0x20])),
    (0, .add (member 3) (key 0x30) (signer 3)), (1, .add (member 4) (key 0x40) (signer 4)),
    (0, .mergeConcurrentOperation 3)]

/-- A removal that follows both changes comes after them. -/
theorem removal_last :
    ∃ (first : Cgka) (w : World Unit) (cgka : Cgka), create = .ok first ∧
      World.Reachable suite first World.KeepsHeads w ∧ cgka ∈ w.replicas ∧
      cgka.opsGraph.cgkaOpHeads.toList = [⟨3⟩, ⟨4⟩] ∧ ∃ epochs, cgka.opsGraph.topsortGraphIn .sorted = .ok epochs ∧
        (cgka.opsGraph.addLocalOp suite.hashOp (removal 5 [⟨3⟩, ⟨4⟩])).topsortGraphIn .sorted
          = .ok (epochs ++ [[removal 5 [⟨3⟩, ⟨4⟩]]]) := by
  obtain ⟨first, w, created, reached, checked⟩ := reached crossing
    (fun w => decide (Distinct suite.hashOp (w.ops ++ [removal 5 [⟨3⟩, ⟨4⟩]])) &&
      w.replicas[0]?.any fun cgka => cgka.opsGraph.cgkaOpHeads.toList = [⟨3⟩, ⟨4⟩])
    (fun w cgka call holds => show World.KeepsHeads w cgka call from (succeeds_sound w cgka call holds).2.keepsHeads)
    (by decide +kernel)
  obtain ⟨distinct, heads⟩ := Bool.and_eq_true_iff.mp checked
  obtain ⟨cgka, found, heads⟩ := (Option.any_eq_true _ _).mp heads
  have heads : cgka.opsGraph.cgkaOpHeads.toList = [⟨3⟩, ⟨4⟩] := of_decide_eq_true heads
  have covers (h : OpDigest) :
      h ∈ (removal 5 [⟨3⟩, ⟨4⟩]).payload.predecessors ↔ h ∈ cgka.opsGraph.cgkaOpHeads := by
    rw [← ExtTreeSet.mem_toList (t := cgka.opsGraph.cgkaOpHeads), heads]
    exact mem_ofList_iff
  obtain ⟨epochs, sorts, -, sorts'⟩ := reached.topsort_covering created (of_decide_eq_true distinct)
    (List.mem_of_getElem? found) covers .sorted .sorted
  exact ⟨first, w, cgka, created, reached, List.mem_of_getElem? found, heads, epochs, sorts, sorts'⟩

end Sample

/-! ### A replica that receives anything -/

namespace CgkaOperationGraph

variable {hash : SignedOp → OpDigest} {ops : List SignedOp} {root op : SignedOp} {graph : CgkaOperationGraph}

/-- **A graph of exactly the operations that were taken in.** -/
structure Accepts (hash : SignedOp → OpDigest) (ops : List SignedOp) (root : SignedOp) (graph : CgkaOperationGraph) :
    Prop where
  grown : Grown hash ops root graph
  listed : ∀ op ∈ ops, graph.cgkaOps[hash op]? = some op
  ranked : ∃ rank : OpDigest → Nat, ∀ (h : OpDigest) (op : SignedOp), graph.cgkaOps[h]? = some op →
    ∀ p ∈ op.payload.predecessors, rank p < rank h

theorem Accepts.sound (accepts : Accepts hash ops root graph) : Sound hash graph :=
  ⟨fun h op found => (accepts.grown.keyed h op found).1, accepts.grown.preds, accepts.grown.closed, accepts.ranked⟩

theorem accepts_new (free : ∀ p, p ∉ root.payload.predecessors) :
    Accepts hash [root] root (CgkaOperationGraph.new.addLocalOp hash root) := by
  have grown : Grown hash [root] root _ := grown_new free
  refine ⟨grown, fun op member => List.mem_singleton.mp member ▸ grown.root, fun _ => 0, fun h op found p isPred => ?_⟩
  obtain rfl := List.mem_singleton.mp (grown.keyed h op found).2
  exact absurd isPred (free p)

/-- **An operation is taken in** if it is new and its predecessors are known. -/
theorem Accepts.addOp (accepts : Accepts hash ops root graph) (new : hash op ∉ graph.cgkaOps)
    (known : ∀ p ∈ op.payload.predecessors, p ∈ graph.cgkaOps) :
    Accepts hash (ops ++ [op]) root (graph.addOp hash op op.payload.predecessors) := by
  classical
  have apart (old : SignedOp) (member : old ∈ ops) : hash old ≠ hash op := fun same =>
    new (same ▸ mem_iff_exists.mpr ⟨old, accepts.listed old member⟩)
  have lookup (h : OpDigest) : (graph.addOp hash op op.payload.predecessors).cgkaOps[h]?
      = if h = hash op then some op else graph.cgkaOps[h]? := getElem?_insert_iff ..
  have listed (old : SignedOp) (member : old ∈ ops ++ [op]) :
      (graph.addOp hash op op.payload.predecessors).cgkaOps[hash old]? = some old := by
    rw [lookup]
    rcases List.mem_append.mp member with earlier | here
    · rw [if_neg (apart old earlier), accepts.listed old earlier]
    · rw [List.mem_singleton.mp here, if_pos rfl]
  have distinct : Distinct hash (ops ++ [op]) := fun one here other there same => by
    have := listed one here
    rw [same, listed other there] at this
    exact (Option.some.inj this).symm
  have grown := (accepts.grown.mono fun _ => List.mem_append_left [op]).addOp distinct (by simp) known
  -- The new operation is ranked above everything that is there.
  obtain ⟨rank, rises⟩ := accepts.ranked
  have bounded (x : OpDigest) (member : x ∈ graph.cgkaOps) :
      rank x ≤ (graph.cgkaOps.keys.map rank).foldr max 0 :=
    List.le_max_of_le' 0 (List.mem_map_of_mem (ExtTreeMap.mem_keys.mpr member)) (Nat.le_refl _)
  refine ⟨grown, listed, Function.update rank (hash op) ((graph.cgkaOps.keys.map rank).foldr max 0 + 1),
    fun h old found p isPred => ?_⟩
  rw [lookup] at found
  have old_of_pred (isKnown : p ∈ graph.cgkaOps) : p ≠ hash op := fun same => new (same ▸ isKnown)
  split at found
  · rename_i here
    obtain rfl := Option.some.inj found
    rw [here, Function.update_of_ne (old_of_pred (known p isPred)), Function.update_self]
    exact Nat.lt_succ_of_le (bounded p (known p isPred))
  · rename_i elsewhere
    rw [Function.update_of_ne (old_of_pred (accepts.grown.closed h old found p isPred)),
      Function.update_of_ne elsewhere]
    exact rises h old found p isPred

/-- The operation has an edge: it follows one, or one follows it. -/
def HasEdge (graph : CgkaOperationGraph) (h : OpDigest) : Prop :=
  ∃ h', h' ∈ graph.before h ∨ h ∈ graph.before h'

theorem Accepts.linked_iff (accepts : Accepts hash ops root graph) {h : OpDigest} :
    Linked graph graph.cgkaOpHeads h ↔ graph.HasEdge h := by
  have history_of {x y : OpDigest} (edge : y ∈ graph.before x) : History graph graph.cgkaOpHeads x := by
    obtain ⟨op, found, -⟩ := accepts.sound.mem_before.mp edge
    exact (accepts.grown.history_iff accepts.sound x).mpr (mem_iff_exists.mpr ⟨op, found⟩)
  refine exists_congr fun y => ⟨?_, ?_⟩
  · rintro (⟨-, follows⟩ | ⟨-, follows⟩)
    · exact .inr follows
    · exact .inl follows
  · rintro (follows | follows)
    · exact .inr ⟨history_of follows, follows⟩
    · exact .inl ⟨history_of follows, follows⟩

/-- **What the sort lists**: all operations if none of them has an edge, and else those that have one. -/
theorem Accepts.topsortGraphIn_lists (accepts : Accepts hash ops root graph) (order : IterOrder) :
    ∃ epochs, graph.topsortGraphIn order = .ok epochs ∧ (epochs.flatten.map hash).Nodup ∧
      ∀ op, op ∈ epochs.flatten ↔ graph.cgkaOps[hash op]? = some op ∧
        ((∀ h, ¬ graph.HasEdge h) ∨ graph.HasEdge (hash op)) := by
  have sound := accepts.sound
  have grown := accepts.grown
  obtain ⟨head, isHead⟩ := grown.nonempty
  obtain ⟨flat, layered⟩ := sound.topsortForHeadsIn_eq grown.heads order isHead
  by_cases some : ∃ x, Linked graph graph.cgkaOpHeads x
  · obtain ⟨epochs, isEpochs, sorts⟩ := layered some
    have inside (h : OpDigest) (_ : Linked graph graph.cgkaOpHeads h) (p : OpDigest) (precedes : p ∈ graph.before h) :
        Linked graph graph.cgkaOpHeads p := accepts.linked_iff.mpr ⟨h, .inr precedes⟩
    have known (h : OpDigest) (isLinked : Linked graph graph.cgkaOpHeads h) : h ∈ graph.cgkaOps :=
      sound.known_of_history grown.heads isLinked.history
    have decomposed := sound.decomposed known inside isEpochs
    refine ⟨_, sorts, decomposed.distinct, fun op => ?_⟩
    obtain ⟨x, isLinked⟩ := some
    have noneFree : ¬ ∀ h, ¬ graph.HasEdge h := fun free => free x (accepts.linked_iff.mp isLinked)
    rw [decomposed.mem_iff, or_iff_right noneFree]
    exact and_congr_right fun _ => accepts.linked_iff
  · have none (h : OpDigest) : ¬ graph.HasEdge h := fun edge => some ⟨h, accepts.linked_iff.mpr edge⟩
    refine ⟨_, flat fun x isLinked => some ⟨x, isLinked⟩, ?_, fun op => ?_⟩
    · rw [List.flatten_singleton, sound.map_opsAt fun h listed => grown.heads h (order.mem_list.mp listed)]
      exact order.nodup_list
    · rw [List.flatten_singleton, sound.mem_opsAt, order.mem_list]
      refine and_congr_right fun found => ⟨fun _ => .inl none, fun _ => ?_⟩
      -- Without edges every operation is a head.
      rcases grown.covered _ (mem_iff_exists.mpr ⟨op, found⟩) with isHead | ⟨h', op', found', follows⟩
      · exact isHead
      · exact absurd ⟨h', .inr (sound.mem_before.mpr ⟨op', found', follows⟩)⟩ (none (hash op))

end CgkaOperationGraph

namespace Cgka

open CgkaOperationGraph

/-- **A replica that is sent any operations at all**, from the creation of the group on. Those that it rejects are
errors. -/
inductive Receives (S : Suite) (first : Cgka) : Cgka → Prop
  | start : Receives S first first
  | merge {cgka cgka' : Cgka} {op : SignedOp} {new : Bool} (received : Receives S first cgka)
      (merges : mergeConcurrentOperation S op cgka = .ok new cgka') : Receives S first cgka'
  | reject {cgka cgka' : Cgka} {op : SignedOp} {error : CgkaError} (received : Receives S first cgka)
      (rejects : mergeConcurrentOperation S op cgka = .error (.err error) cgka') : Receives S first cgka'

variable {S : Suite} {docId : TreeId} {ownerId : MemberId} {ownerPk : ShareKey} {signer : Signer} {first cgka : Cgka}

theorem mergeConcurrentOperation_accepts (op : SignedOp) {ops : List SignedOp} {root : SignedOp}
    (accepts : Accepts S.hashOp ops root cgka.opsGraph) :
    After (mergeConcurrentOperation S op cgka)
      (fun _ cgka' => ∃ ops, Accepts S.hashOp ops root cgka'.opsGraph) (Unmoved cgka) := by
  have published : op ∈ (⟨[], [(op, cgka)], []⟩ : World Unit).published.map Prod.fst := by simp
  refine (step_mergeConcurrentOperation _ published).mono (fun _ cgka' step => ?_) fun _ _ => id
  rcases step.graph_cases.2 with ⟨-, same⟩ | ⟨made, isSome, -⟩ | ⟨-, taken, -, unknown, known, grows⟩
  · exact ⟨ops, same ▸ accepts⟩
  · simp at isSome
  · have new : S.hashOp taken ∉ cgka.opsGraph.cgkaOps := fun member => by
      unfold containsOpHash at unknown
      rw [ExtTreeMap.contains_iff_mem.mpr member] at unknown
      simp at unknown
    exact ⟨_, grows ▸ accepts.addOp new (containsPredecessors_iff.mp known)⟩

theorem Receives.accepts (created : Cgka.new S docId ownerId ownerPk signer = .ok first)
    (received : Receives S first cgka) : ∃ ops, Accepts S.hashOp ops first.initAddOp cgka.opsGraph := by
  induction received with
  | start =>
    obtain ⟨graph, free⟩ := World.new_graph created
    exact ⟨_, graph ▸ accepts_new free⟩
  | @merge _ _ op _ received merges ih =>
    obtain ⟨ops, accepts⟩ := ih
    have after := mergeConcurrentOperation_accepts op accepts
    rw [merges] at after
    exact after
  | @reject _ _ op _ received rejects ih =>
    obtain ⟨ops, accepts⟩ := ih
    have after := mergeConcurrentOperation_accepts op accepts
    rw [rejects] at after
    exact ⟨ops, (after _ rfl).1 ▸ accepts⟩

/-- **What survives a replay.** Nothing is listed twice, in whatever order sets are walked; and every operation of the
graph is listed if and only if no operation has a predecessor, or each of them has one or is one. -/
theorem Receives.topsort_complete_iff (created : Cgka.new S docId ownerId ownerPk signer = .ok first)
    (received : Receives S first cgka) (order : IterOrder) :
    ∃ epochs, cgka.opsGraph.topsortGraphIn order = .ok epochs ∧ (epochs.flatten.map S.hashOp).Nodup ∧
      (∀ op ∈ epochs.flatten, cgka.opsGraph.cgkaOps[S.hashOp op]? = some op) ∧
      ((∀ (h : OpDigest) (op : SignedOp), cgka.opsGraph.cgkaOps[h]? = some op → op ∈ epochs.flatten) ↔
        (∀ (h : OpDigest) (op : SignedOp), cgka.opsGraph.cgkaOps[h]? = some op → ∀ p, p ∉ op.payload.predecessors) ∨
          ∀ (h : OpDigest) (op : SignedOp), cgka.opsGraph.cgkaOps[h]? = some op →
            (∃ p, p ∈ op.payload.predecessors) ∨ ∃ (h' : OpDigest) (op' : SignedOp),
              cgka.opsGraph.cgkaOps[h']? = some op' ∧ h ∈ op'.payload.predecessors) := by
  obtain ⟨ops, accepts⟩ := received.accepts created
  have sound := accepts.sound
  obtain ⟨epochs, sorts, nodup, lists⟩ := accepts.topsortGraphIn_lists order
  have noEdge : (∀ h, ¬ cgka.opsGraph.HasEdge h) ↔ ∀ (h : OpDigest) (op : SignedOp),
      cgka.opsGraph.cgkaOps[h]? = some op → ∀ p, p ∉ op.payload.predecessors := by
    constructor
    · exact fun none h op found p isPred => none h ⟨p, .inl (sound.mem_before.mpr ⟨op, found, isPred⟩)⟩
    · rintro free h ⟨h', edge | edge⟩
      · obtain ⟨op, found, isPred⟩ := sound.mem_before.mp edge
        exact free _ op found _ isPred
      · obtain ⟨op, found, isPred⟩ := sound.mem_before.mp edge
        exact free _ op found _ isPred
  have edge_iff {h : OpDigest} {op : SignedOp} (found : cgka.opsGraph.cgkaOps[h]? = some op) :
      cgka.opsGraph.HasEdge h ↔ (∃ p, p ∈ op.payload.predecessors) ∨ ∃ (h' : OpDigest) (op' : SignedOp),
        cgka.opsGraph.cgkaOps[h']? = some op' ∧ h ∈ op'.payload.predecessors := by
    have here (p : OpDigest) : p ∈ cgka.opsGraph.before h ↔ p ∈ op.payload.predecessors := by
      rw [sound.mem_before, found]
      simp
    simp only [HasEdge, exists_or, here, sound.mem_before]
  refine ⟨epochs, sorts, nodup, fun op member => ((lists op).mp member).1, ?_⟩
  rw [← noEdge]
  constructor
  · intro complete
    by_cases none : ∀ h, ¬ cgka.opsGraph.HasEdge h
    · exact .inl none
    · refine .inr fun h op found => (edge_iff found).mp ?_
      have edge := (((lists op).mp (complete h op found)).2).resolve_left none
      rwa [sound.keyed h op found] at edge
  · intro condition h op found
    have key := sound.keyed h op found
    refine (lists op).mpr ⟨key ▸ found, condition.imp id fun all => ?_⟩
    rw [key]
    exact (edge_iff found).mpr (all h op found)

end Cgka

namespace Sample

open CgkaOperationGraph

/-- The replica that merges operations, as far as none of them panics. -/
def receiveAll (cgka : Cgka) : List SignedOp → Option Cgka
  | [] => some cgka
  | op :: rest =>
    match Cgka.mergeConcurrentOperation suite op cgka with
    | .ok _ cgka' => receiveAll cgka' rest
    | .error (.err _) cgka' => receiveAll cgka' rest
    | .error _ _ => none

theorem receives_of_receiveAll {first cgka cgka' : Cgka} {ops : List SignedOp}
    (received : Cgka.Receives suite first cgka) (runs : receiveAll cgka ops = some cgka') :
    Cgka.Receives suite first cgka' := by
  induction ops generalizing cgka with
  | nil => exact Option.some.inj runs ▸ received
  | cons op rest ih =>
    unfold receiveAll at runs
    split at runs
    · rename_i merges
      exact ih (.merge received merges) runs
    · rename_i rejects
      exact ih (.reject received rejects) runs
    · simp at runs

/-- **Operations that the new group of the sample is sent.** -/
theorem received (ops : List SignedOp) (check : Cgka → Bool)
    (passes : (create.toOption.bind fun first => receiveAll first ops).map check = some true) :
    ∃ first cgka, create = .ok first ∧ Cgka.Receives suite first cgka ∧ check cgka = true := by
  obtain ⟨cgka, runs, checked⟩ := Option.map_eq_some_iff.mp passes
  obtain ⟨first, made, runs⟩ := Option.bind_eq_some_iff.mp runs
  refine ⟨first, cgka, ?_, receives_of_receiveAll .start runs, checked⟩
  cases created : create with
  | ok value =>
    rw [created] at made
    exact congrArg Except.ok (Option.some.inj made)
  | error fault => simp [created, Except.toOption] at made

def addition (n : Nat) (predecessors : List OpDigest) : SignedOp :=
  ⟨.add (member n) (key (16 * n)) 1 predecessors predecessors ⟨0⟩, ⟨0⟩, BitVec.ofNat 512 n⟩

/-- Two concurrent adds that follow the first operation are replayed after it. -/
theorem concurrent_adds_survive :
    ∃ first cgka, create = .ok first ∧ Cgka.Receives suite first cgka ∧
      cgka.opsGraph.topsortGraph = .ok [[rootOp], [addition 2 [⟨1⟩], addition 3 [⟨1⟩]]] ∧
      ∀ op ∈ [rootOp, addition 2 [⟨1⟩], addition 3 [⟨1⟩]], cgka.opsGraph.cgkaOps[suite.hashOp op]? = some op := by
  obtain ⟨first, cgka, created, receives, checked⟩ := received [addition 2 [⟨1⟩], addition 3 [⟨1⟩]]
    (fun cgka => cgka.opsGraph.topsortGraph = .ok [[rootOp], [addition 2 [⟨1⟩], addition 3 [⟨1⟩]]]) (by decide +kernel)
  have sorts := of_decide_eq_true checked
  obtain ⟨epochs, again, -, known, -⟩ := receives.topsort_complete_iff created .sorted
  obtain rfl := Except.ok.inj ((again.symm.trans (topsortForHeadsIn_sorted _ _)).trans sorts)
  exact ⟨first, cgka, created, receives, sorts, known⟩

/-- **An add without predecessors is lost**: the replica has it, and no replay applies it. -/
theorem isolated_add_lost :
    ∃ first cgka epochs, create = .ok first ∧ Cgka.Receives suite first cgka ∧
      cgka.opsGraph.cgkaOps[(⟨3⟩ : OpDigest)]? = some (addition 3 []) ∧
      cgka.opsGraph.topsortGraph = .ok epochs ∧ addition 3 [] ∉ epochs.flatten := by
  obtain ⟨first, cgka, created, receives, checked⟩ := received [addition 2 [⟨1⟩], addition 3 []]
    (fun cgka => cgka.opsGraph.cgkaOps[(⟨3⟩ : OpDigest)]? = some (addition 3 []) ∧
      cgka.opsGraph.topsortGraph = .ok [[rootOp], [addition 2 [⟨1⟩]]]) (by decide +kernel)
  obtain ⟨found, sorts⟩ := of_decide_eq_true checked
  exact ⟨first, cgka, _, created, receives, found, sorts, by decide +kernel⟩

end Sample

end KeyhiveEval.Beekem
