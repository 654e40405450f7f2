/-
**Layers and epochs of a finite causal graph.**

A graph is a set of nodes with what comes immediately before each of them. Its layers are taken out
one after the other: a layer has all the nodes whose predecessors are done. The layers are grouped
into epochs: a node is open while something that follows it is not done, and an epoch ends where at
most one node is open.

* `Layered.order`, `Epochs.order` — the layers and the epochs list every node once and after its
  predecessors.
* `Layered.unique`, `flatten_group` — the layers are determined by the graph, and grouping them
  keeps their order.
* `Epochs.ancestors` — everything in an epoch is an ancestor of everything in a later one.
* `Epochs.first` — a node that comes before everything is the first epoch.
* `Extends` — one more node on top of a graph. If its predecessors are exactly the nodes that nothing
  follows, it is one more epoch after those of the graph (`Extends.epochs`).
-/

import Mathlib.Data.Set.Basic
import Mathlib.Data.List.Basic
import Mathlib.Data.List.Pairwise
import Mathlib.Logic.Relation

namespace Layering

variable {T : Type}

/-- Nodes, with what comes immediately before each of them. -/
structure Graph (T : Type) where
  nodes : Set T
  before : T → Set T

/-- The nodes that are left and whose predecessors are done, in order. -/
structure Layer (lt : T → T → Prop) (g : Graph T) (done : Set T) (layer : List T) : Prop where
  sorted : layer.Pairwise lt
  mem_iff : ∀ x, x ∈ layer ↔ x ∈ g.nodes ∧ x ∉ done ∧ g.before x ⊆ done

/-- The nodes that are done after a layer. -/
def after (done : Set T) (layer : List T) : Set T := {x | x ∈ done ∨ x ∈ layer}

inductive Layered (lt : T → T → Prop) (g : Graph T) : Set T → List (List T) → Prop
  | nil {done : Set T} (all : ∀ x ∈ g.nodes, x ∈ done) : Layered lt g done []
  | cons {done : Set T} {layer : List T} {rest : List (List T)} (isLayer : Layer lt g done layer)
      (some : layer ≠ []) (later : Layered lt g (after done layer) rest) :
      Layered lt g done (layer :: rest)

def push (epochs : List (List T)) (epoch : List T) : List (List T) :=
  if epoch.isEmpty then epochs else epochs ++ [epoch]

/-- A node that is done, while nothing follows it or something that follows it is not done. -/
def Open (g : Graph T) (done : Set T) (x : T) : Prop :=
  x ∈ done ∧ ((∀ y ∈ g.nodes, x ∉ g.before y) ∨ ∃ y ∈ g.nodes, x ∈ g.before y ∧ y ∉ done)

/-- At most one node is open. -/
def Narrow (g : Graph T) (done : Set T) : Prop :=
  ∀ x y, Open g done x → Open g done y → x = y

open Classical in
noncomputable def group (g : Graph T) (done : Set T) (next : List T) (epochs : List (List T)) :
    List (List T) → List (List T)
  | [] => push epochs next
  | layer :: rest =>
    if Narrow g (after done layer) then
      group g (after done layer) [] (push (push epochs next) layer) rest
    else group g (after done layer) (next ++ layer) epochs rest

def Epochs (lt : T → T → Prop) (g : Graph T) (epochs : List (List T)) : Prop :=
  ∃ layers, Layered lt g ∅ layers ∧ epochs = group g ∅ [] [] layers

/-! ### The order of the layers -/

section Order

variable {lt : T → T → Prop} {g : Graph T}

/-- A list without repetition in which everything comes after its predecessors. -/
structure Ordered (g : Graph T) (done : Set T) (order : List T) : Prop where
  nodup : order.Nodup
  fresh : ∀ x ∈ order, x ∉ done
  earlier : ∀ first x last, order = first ++ x :: last → ∀ p ∈ g.before x, p ∈ done ∨ p ∈ first

variable {done : Set T}

theorem Ordered.append {order more : List T} (ordered : Ordered g done order) (distinct : more.Nodup)
    (fresh : ∀ x ∈ more, x ∉ done ∧ x ∉ order) (ready : ∀ x ∈ more, ∀ p ∈ g.before x, p ∈ done ∨ p ∈ order) :
    Ordered g done (order ++ more) := by
  refine ⟨List.nodup_append.mpr ⟨ordered.nodup, distinct, fun x old y new same => (fresh y new).2 (same ▸ old)⟩,
    fun x member => ?_, fun first x last split p before => ?_⟩
  · exact (List.mem_append.mp member).elim (ordered.fresh x) fun new => (fresh x new).1
  · rcases List.append_eq_append_iff.mp split with ⟨mid, rfl, later⟩ | ⟨mid, here, later⟩
    · have member : x ∈ more := by simp [later]
      exact (ready x member p before).imp_right (List.mem_append_left mid)
    · cases mid with
      | nil =>
        have member : x ∈ more := (show x :: last = more from later) ▸ List.mem_cons_self
        have whole : order = first := by simpa using here
        exact whole ▸ ready x member p before
      | cons y mid =>
        obtain ⟨rfl, -⟩ := List.cons.inj later
        exact ordered.earlier first x mid here p before

theorem Ordered.index_lt {order : List T} (ordered : Ordered g ∅ order) {x p : T} (listed : x ∈ order)
    (before : p ∈ g.before x) : ∃ i j : Nat, i < j ∧ order[i]? = some p ∧ order[j]? = some x := by
  obtain ⟨first, last, rfl⟩ := List.append_of_mem listed
  have earlier := (ordered.earlier first x last rfl p before).resolve_left (Set.notMem_empty p)
  obtain ⟨i, bound, rfl⟩ := List.getElem_of_mem earlier
  refine ⟨i, first.length, bound, ?_, by simp⟩
  rw [List.getElem?_append_left bound, List.getElem?_eq_getElem bound]

variable {layers : List (List T)}

theorem Layered.mem_flatten
    (layered : Layered lt g done layers) (x : T) :
    x ∈ g.nodes → x ∈ done ∨ x ∈ layers.flatten := by
  intro node
  induction layered with
  | nil all => exact .inl (all x node)
  | cons isLayer _ _ ih =>
    rcases ih with (done | here) | later
    · exact .inl done
    · exact .inr (List.mem_append_left _ here)
    · exact .inr (List.mem_append_right _ later)

theorem Layered.node_of_mem
    (layered : Layered lt g done layers) {x : T} (member : x ∈ layers.flatten) :
    x ∈ g.nodes ∧ x ∉ done := by
  induction layered with
  | nil => simp at member
  | cons isLayer _ _ ih =>
    rcases List.mem_append.mp (List.flatten_cons ▸ member) with here | later
    · have := (isLayer.mem_iff x).mp here
      exact ⟨this.1, this.2.1⟩
    · exact ⟨(ih later).1, fun done => (ih later).2 (.inl done)⟩

variable [Std.Irrefl lt]

theorem Layer.nodup {layer : List T} (isLayer : Layer lt g done layer) :
    layer.Nodup := by
  refine isLayer.sorted.imp fun {x y} less same => ?_
  exact Std.Irrefl.irrefl y (same ▸ less)

/-- **The layers list every node once and after its predecessors.** -/
theorem Layered.order
    (layered : Layered lt g done layers) : Ordered g done layers.flatten := by
  induction layered with
  | nil => exact ⟨List.nodup_nil, by simp, by simp⟩
  | @cons done layer rest isLayer _ restLayered ih =>
    refine ⟨?_, fun x member => (Layered.node_of_mem (.cons isLayer ‹_› restLayered) member).2, ?_⟩
    · refine List.nodup_append.mpr ⟨isLayer.nodup, ih.nodup, fun x here y later same => ?_⟩
      exact ih.fresh y later (.inr (same ▸ here))
    · intro first x last split p before
      rw [List.flatten_cons] at split
      rcases List.append_eq_append_iff.mp split with ⟨mid, rfl, later⟩ | ⟨mid, here, later⟩
      · rcases ih.earlier mid x last later p before with (done | here) | earlier
        · exact .inl done
        · exact .inr (List.mem_append_left _ here)
        · exact .inr (List.mem_append_right _ earlier)
      · -- The node is in the layer itself, so all its predecessors were done before.
        cases mid with
        | nil =>
          rcases ih.earlier [] x last later.symm p before with (done | inLayer) | earlier
          · exact .inl done
          · exact .inr (by simpa [here] using inLayer)
          · simp at earlier
        | cons y mid =>
          obtain ⟨rfl, -⟩ := List.cons.inj later
          have member : x ∈ layer := by simp [here]
          exact .inl (((isLayer.mem_iff x).mp member).2.2 before)

variable [Std.Asymm lt]

theorem Layer.unique {layer layer' : List T} (isLayer : Layer lt g done layer)
    (isLayer' : Layer lt g done layer') : layer = layer' := by
  refine List.Perm.eq_of_pairwise ?_ isLayer.sorted isLayer'.sorted ?_
  · intro x y _ _ less greater
    exact absurd greater (Std.Asymm.asymm x y less)
  · rw [List.perm_ext_iff_of_nodup isLayer.nodup isLayer'.nodup]
    exact fun x => (isLayer.mem_iff x).trans (isLayer'.mem_iff x).symm

/-- **The layers are determined by the graph.** -/
theorem Layered.unique {layers' : List (List T)}
    (layered : Layered lt g done layers) (layered' : Layered lt g done layers') :
    layers = layers' := by
  induction layered generalizing layers' with
  | nil all =>
    cases layered' with
    | nil => rfl
    | @cons _ layer rest isLayer some _ =>
      obtain ⟨x, member⟩ := List.exists_mem_of_ne_nil layer some
      have := (isLayer.mem_iff x).mp member
      exact absurd (all x this.1) this.2.1
  | @cons done layer rest isLayer some _ ih =>
    cases layered' with
    | nil all =>
      obtain ⟨x, member⟩ := List.exists_mem_of_ne_nil layer some
      have := (isLayer.mem_iff x).mp member
      exact absurd (all x this.1) this.2.1
    | cons isLayer' _ rest' =>
      obtain rfl := isLayer.unique isLayer'
      rw [ih rest']

theorem Epochs.unique {epochs epochs' : List (List T)} (first : Epochs lt g epochs)
    (second : Epochs lt g epochs') : epochs = epochs' := by
  obtain ⟨layers, layered, rfl⟩ := first
  obtain ⟨layers', layered', rfl⟩ := second
  rw [layered.unique layered']

end Order

/-! ### Grouping -/

theorem flatten_push (epochs : List (List T)) (epoch : List T) :
    (push epochs epoch).flatten = epochs.flatten ++ epoch := by
  unfold push
  split
  · rename_i empty
    rw [List.isEmpty_iff.mp empty, List.append_nil]
  · rw [List.flatten_append, List.flatten_singleton]

theorem flatten_group (g : Graph T) (done : Set T) (next : List T) (epochs layers : List (List T)) :
    (group g done next epochs layers).flatten = epochs.flatten ++ next ++ layers.flatten := by
  induction layers generalizing done next epochs with
  | nil => simp [group, flatten_push]
  | cons layer rest ih =>
    unfold group
    split
    · rw [ih, flatten_push, flatten_push]
      simp
    · rw [ih]
      simp

variable {lt : T → T → Prop} {g : Graph T}

theorem Epochs.exists_layers {epochs : List (List T)}
    (isEpochs : Epochs lt g epochs) :
    ∃ layers, Layered lt g ∅ layers ∧ layers.flatten = epochs.flatten := by
  obtain ⟨layers, layered, rfl⟩ := isEpochs
  refine ⟨layers, layered, ?_⟩
  rw [flatten_group]
  simp

theorem Epochs.mem_flatten {epochs : List (List T)}
    (isEpochs : Epochs lt g epochs) (x : T) : x ∈ epochs.flatten ↔ x ∈ g.nodes := by
  obtain ⟨layers, layered, same⟩ := isEpochs.exists_layers
  rw [← same]
  exact ⟨fun member => (layered.node_of_mem member).1,
    fun node => (layered.mem_flatten x node).resolve_left id⟩

theorem Epochs.order [Std.Irrefl lt] {epochs : List (List T)}
    (isEpochs : Epochs lt g epochs) : Ordered g ∅ epochs.flatten := by
  obtain ⟨layers, layered, same⟩ := isEpochs.exists_layers
  rw [← same]
  exact layered.order

theorem push_append (first epochs : List (List T)) (epoch : List T) :
    push (first ++ epochs) epoch = first ++ push epochs epoch := by
  unfold push
  split
  · rfl
  · rw [List.append_assoc]

theorem group_append (g : Graph T) (done : Set T) (next : List T)
    (first epochs layers : List (List T)) :
    group g done next (first ++ epochs) layers = first ++ group g done next epochs layers := by
  induction layers generalizing done next epochs with
  | nil => exact push_append first epochs next
  | cons layer rest ih =>
    unfold group
    split
    · rw [push_append, push_append, ih]
    · rw [ih]

/-- **A node that comes before everything is the first epoch.** -/
theorem Epochs.first [Std.Irrefl lt] {epochs : List (List T)}
    {root : T} (isEpochs : Epochs lt g epochs) (node : root ∈ g.nodes)
    (least : ∀ x ∈ g.nodes, g.before x = ∅ ↔ x = root) : ∃ rest, epochs = [root] :: rest := by
  obtain ⟨layers, layered, rfl⟩ := isEpochs
  have free (x : T) : x ∈ g.nodes ∧ x ∉ (∅ : Set T) ∧ g.before x ⊆ ∅ ↔ x = root := by
    constructor
    · rintro ⟨isNode, -, below⟩
      exact (least x isNode).mp (Set.subset_empty_iff.mp below)
    · rintro rfl
      exact ⟨node, id, ((least _ node).mpr rfl).subset⟩
  cases layered with
  | nil all => exact absurd (all root node) id
  | @cons _ layer rest isLayer _ later =>
    have only : layer = [root] := by
      refine List.perm_singleton.mp ((List.perm_ext_iff_of_nodup isLayer.nodup (by simp)).mpr ?_)
      intro x
      rw [isLayer.mem_iff, free, List.mem_singleton]
    subst only
    have narrow : Narrow g (after ∅ [root]) := by
      rintro x y ⟨memberX, -⟩ ⟨memberY, -⟩
      have is (z : T) (memberZ : z ∈ after ∅ [root]) : z = root :=
        memberZ.elim False.elim List.mem_singleton.mp
      rw [is x memberX, is y memberY]
    refine ⟨group g (after ∅ [root]) [] [] rest, ?_⟩
    rw [group, if_pos narrow]
    exact group_append g _ [] [[root]] [] rest

/-! ### One more node on top -/

/-- The nodes are ranked: every node is above its predecessors, and the ranks are bounded. -/
def Ranked (g : Graph T) : Prop :=
  ∃ (rank : T → Nat) (bound : Nat), (∀ y ∈ g.nodes, ∀ x ∈ g.before y, rank x < rank y) ∧
    ∀ x ∈ g.nodes, rank x ≤ bound

/-- **A graph with one more node**, whose predecessors cover all the nodes that nothing follows. -/
structure Extends (g g' : Graph T) (top : T) : Prop where
  fresh : top ∉ g.nodes
  nodes : ∀ x, x ∈ g'.nodes ↔ x ∈ g.nodes ∨ x = top
  before : ∀ x ∈ g.nodes, g'.before x = g.before x
  apart : ∀ x ∈ g.nodes, top ∉ g.before x
  below : g'.before top ⊆ g.nodes
  covers : ∀ x ∈ g.nodes, x ∈ g'.before top ∨ ∃ y ∈ g.nodes, x ∈ g.before y

/-- What is done has its predecessors done. -/
def Lower (g : Graph T) (done : Set T) : Prop :=
  done ⊆ g.nodes ∧ ∀ y ∈ done, g.before y ⊆ done

theorem Lower.after {done : Set T} {layer : List T}
    (lower : Lower g done) (isLayer : Layer lt g done layer) : Lower g (after done layer) := by
  refine ⟨fun x member => ?_, fun y member x before => ?_⟩
  · rcases member with old | new
    · exact lower.1 old
    · exact ((isLayer.mem_iff x).mp new).1
  · rcases member with old | new
    · exact .inl (lower.2 y old before)
    · exact .inl (((isLayer.mem_iff y).mp new).2.2 before)

theorem lower_empty (g : Graph T) : Lower g ∅ := ⟨Set.empty_subset _, fun _ member => member.elim⟩

/-! ### Epochs are ordered -/

def Ancestor (g : Graph T) : T → T → Prop := Relation.TransGen fun x y => x ∈ g.before y

section Ancestors

variable {lt : T → T → Prop} {g : Graph T} (ranked : Ranked g) (inside : ∀ x ∈ g.nodes, g.before x ⊆ g.nodes)
  {done : Set T} {layer : List T}

include ranked in
theorem exists_open_above {x : T} (isDone : x ∈ done) :
    ∃ h, Open g done h ∧ (x = h ∨ Ancestor g x h) := by
  obtain ⟨rank, bound, rises, bounded⟩ := ranked
  induction steps : bound - rank x using Nat.strong_induction_on generalizing x with
  | _ steps ih =>
    by_cases isOpen : Open g done x
    · exact ⟨x, isOpen, .inl rfl⟩
    · -- Something follows a node that is not open, and everything that does is done.
      rw [Open, not_and, not_or] at isOpen
      obtain ⟨followed, all⟩ := isOpen isDone
      push Not at followed all
      obtain ⟨y, nodeY, before⟩ := followed
      have := rises y nodeY x before
      have := bounded y nodeY
      obtain ⟨h, openH, above⟩ := ih (bound - rank y) (by omega) (all y nodeY before) rfl
      refine ⟨h, openH, .inr ?_⟩
      rcases above with rfl | above
      · exact .single before
      · exact .head before above

include ranked inside in
/-- Below a node that is left there is an open one, if the nodes without predecessors are done. -/
theorem exists_open_below (roots : ∀ y ∈ g.nodes, g.before y = ∅ → y ∈ done) {z : T} (node : z ∈ g.nodes)
    (left : z ∉ done) : ∃ h, Open g done h ∧ Ancestor g h z := by
  obtain ⟨rank, -, rises, -⟩ := ranked
  induction steps : rank z using Nat.strong_induction_on generalizing z with
  | _ steps ih =>
    obtain ⟨p, before⟩ := Set.nonempty_iff_ne_empty.mpr fun none => left (roots z node none)
    by_cases doneP : p ∈ done
    · exact ⟨p, ⟨doneP, .inr ⟨z, node, before, left⟩⟩, .single before⟩
    · obtain ⟨h, openH, below⟩ := ih (rank p) (steps ▸ rises z node p before) (inside z node before) doneP rfl
      exact ⟨h, openH, below.tail before⟩

theorem Layer.open (isLayer : Layer lt g done layer) (lower : Lower g done) {z : T} (member : z ∈ layer) :
    Open g (after done layer) z := by
  refine ⟨.inr member, ?_⟩
  by_cases followed : ∃ y ∈ g.nodes, z ∈ g.before y
  · obtain ⟨y, node, before⟩ := followed
    have left := ((isLayer.mem_iff z).mp member).2.1
    refine .inr ⟨y, node, before, fun isDone => left ?_⟩
    rcases isDone with old | new
    · exact lower.2 y old before
    · exact ((isLayer.mem_iff y).mp new).2.2 before
  · push Not at followed
    exact .inl followed

include ranked inside in
/-- Where at most one node is open, what is done is an ancestor of what is left. -/
theorem Narrow.ancestor (isLayer : Layer lt g done layer)
    (narrow : Narrow g (after done layer)) {x z : T} (isDone : x ∈ after done layer) (node : z ∈ g.nodes)
    (left : z ∉ after done layer) : Ancestor g x z := by
  have roots (y : T) (node : y ∈ g.nodes) (none : g.before y = ∅) : y ∈ after done layer := by
    by_cases old : y ∈ done
    · exact .inl old
    · exact .inr ((isLayer.mem_iff y).mpr ⟨node, old, none.subset.trans (Set.empty_subset _)⟩)
  obtain ⟨h, openH, above⟩ := exists_open_above ranked isDone
  obtain ⟨h', openH', below⟩ := exists_open_below ranked inside roots node left
  obtain rfl := narrow h h' openH openH'
  rcases above with rfl | above
  · exact below
  · exact above.trans below

include ranked in
theorem Narrow.ancestor_layer (isLayer : Layer lt g done layer) (lower : Lower g done)
    (narrow : Narrow g (after done layer)) {x z : T} (isDone : x ∈ done) (member : z ∈ layer) : Ancestor g x z := by
  have isDone' : x ∈ after done layer := .inl isDone
  obtain ⟨h, openH, above⟩ := exists_open_above ranked isDone'
  obtain rfl := narrow h z openH (isLayer.open lower member)
  refine above.resolve_left ?_
  rintro rfl
  exact ((isLayer.mem_iff x).mp member).2.1 isDone

/-- Everything in the first list is an ancestor of everything in the second. -/
def Earlier (g : Graph T) (first second : List T) : Prop := ∀ x ∈ first, ∀ y ∈ second, Ancestor g x y

theorem pairwise_push {epochs : List (List T)} {epoch : List T} (ordered : epochs.Pairwise (Earlier g))
    (later : ∀ e ∈ epochs, Earlier g e epoch) : (push epochs epoch).Pairwise (Earlier g) := by
  unfold push
  split
  · exact ordered
  · exact List.pairwise_append.mpr ⟨ordered, List.pairwise_singleton _ _,
      fun e member last isLast => List.mem_singleton.mp isLast ▸ later e member⟩

theorem mem_of_mem_push {epochs : List (List T)} {epoch e : List T} (member : e ∈ push epochs epoch) :
    e ∈ epochs ∨ e = epoch := by
  unfold push at member
  split at member
  · exact .inl member
  · exact (List.mem_append.mp member).imp_right List.mem_singleton.mp

include ranked inside in
/-- The groups so far are ordered, and what is in them is done and an ancestor of everything else. -/
theorem Layered.pairwise_group {layers : List (List T)} (layered : Layered lt g done layers) (lower : Lower g done)
    {next : List T} {epochs : List (List T)} (current : ∀ x ∈ next, x ∈ done) (ordered : epochs.Pairwise (Earlier g))
    (isDone : ∀ e ∈ epochs, ∀ x ∈ e, x ∈ done) (later : ∀ e ∈ epochs, Earlier g e next)
    (left : ∀ e ∈ epochs, ∀ x ∈ e, ∀ z ∈ g.nodes, z ∉ done → Ancestor g x z) :
    (group g done next epochs layers).Pairwise (Earlier g) := by
  induction layered generalizing next epochs with
  | nil => exact pairwise_push ordered later
  | @cons done layer rest isLayer _ _ ih =>
    have fresh {z : T} (member : z ∈ layer) := (isLayer.mem_iff z).mp member
    have lower' := lower.after isLayer
    unfold group
    split
    · rename_i narrow
      -- The epochs so far, the current one and the layer.
      have all (e : List T) (member : e ∈ push (push epochs next) layer) : e ∈ epochs ∨ e = next ∨ e = layer :=
        (mem_of_mem_push member).elim (fun old => (mem_of_mem_push old).imp_right .inl) fun new => .inr (.inr new)
      have done' (e : List T) (member : e ∈ push (push epochs next) layer) (x : T) (inE : x ∈ e) :
          x ∈ after done layer := by
        rcases all e member with old | rfl | rfl
        · exact .inl (isDone e old x inE)
        · exact .inl (current x inE)
        · exact .inr inE
      refine ih lower' (by simp) (pairwise_push (pairwise_push ordered later) fun e member => ?_) done' (by simp [Earlier])
        fun e member x inE z node leftZ =>
          narrow.ancestor ranked inside isLayer (done' e member x inE) node leftZ
      intro x inE z inLayer
      rcases mem_of_mem_push member with old | rfl
      · exact left e old x inE z (fresh inLayer).1 (fresh inLayer).2.1
      · exact narrow.ancestor_layer ranked isLayer lower (current x inE) inLayer
    · refine ih lower' (fun x member => ?_) ordered (fun e member x inE => .inl (isDone e member x inE))
        (fun e member x inE z inNext => ?_) fun e member x inE z node leftZ =>
          left e member x inE z node fun old => leftZ (.inl old)
      · exact (List.mem_append.mp member).imp (current x) id
      · rcases List.mem_append.mp inNext with old | new
        · exact later e member x inE z old
        · exact left e member x inE z (fresh new).1 (fresh new).2.1

include ranked inside in
/-- **Everything in an epoch is an ancestor of everything in a later one.** -/
theorem Epochs.ancestors {epochs : List (List T)} (isEpochs : Epochs lt g epochs) :
    epochs.Pairwise (Earlier g) := by
  obtain ⟨layers, layered, rfl⟩ := isEpochs
  exact layered.pairwise_group ranked inside (lower_empty g) (by simp) List.Pairwise.nil (by simp) (by simp) (by simp)

end Ancestors

namespace Extends

variable {g g' : Graph T} {top : T} (extended : Extends g g' top)

include extended

variable {done : Set T}

/-- While a node is left, a predecessor of the top is left. -/
theorem exists_before_top (ranked : Ranked g) (lower : Lower g done) {x : T}
    (node : x ∈ g.nodes) (left : x ∉ done) : ∃ t ∈ g'.before top, t ∉ done := by
  obtain ⟨rank, bound, rises, bounded⟩ := ranked
  -- Climb from the node: what follows it is left as well, and has a higher rank.
  induction steps : bound - rank x using Nat.strong_induction_on generalizing x with
  | _ steps ih =>
    rcases extended.covers x node with below | ⟨y, nodeY, before⟩
    · exact ⟨x, below, left⟩
    · have leftY : y ∉ done := fun doneY => left (lower.2 y doneY before)
      have := rises y nodeY x before
      have := bounded y nodeY
      exact ih (bound - rank y) (by omega) nodeY leftY rfl

variable {lt : T → T → Prop}

theorem layer (ranked : Ranked g) {layer : List T}
    (lower : Lower g done) (isLayer : Layer lt g done layer) (some : layer ≠ []) :
    Layer lt g' done layer := by
  refine ⟨isLayer.sorted, fun x => ?_⟩
  rw [isLayer.mem_iff, extended.nodes]
  constructor
  · rintro ⟨node, left, before⟩
    exact ⟨.inl node, left, extended.before x node ▸ before⟩
  · rintro ⟨node | rfl, left, before⟩
    · exact ⟨node, left, extended.before x node ▸ before⟩
    · obtain ⟨y, member⟩ := List.exists_mem_of_ne_nil layer some
      obtain ⟨nodeY, leftY, -⟩ := (isLayer.mem_iff y).mp member
      obtain ⟨t, below, leftT⟩ := extended.exists_before_top ranked lower nodeY leftY
      exact absurd (before below) leftT

theorem topLayer (lt : T → T → Prop) (lower : Lower g done)
    (all : ∀ x ∈ g.nodes, x ∈ done) : Layer lt g' done [top] := by
  refine ⟨List.pairwise_singleton _ _, fun x => ?_⟩
  rw [List.mem_singleton, extended.nodes]
  constructor
  · rintro rfl
    exact ⟨.inr rfl, fun done => extended.fresh (lower.1 done),
      fun p below => all p (extended.below below)⟩
  · rintro ⟨node | rfl, left, -⟩
    · exact absurd (all x node) left
    · rfl

variable {layers : List (List T)}

theorem layered (ranked : Ranked g)
    (lower : Lower g done) (layered : Layered lt g done layers) :
    Layered lt g' done (layers ++ [[top]]) := by
  induction layered with
  | nil all =>
    refine .cons (extended.topLayer lt lower all) (by simp) (.nil fun x node => ?_)
    rcases (extended.nodes x).mp node with node | rfl
    · exact .inl (all x node)
    · exact .inr List.mem_cons_self
  | cons isLayer some _ ih =>
    exact .cons (extended.layer ranked lower isLayer some) some (ih (lower.after isLayer))

theorem narrow_top (lower : Lower g done) (all : ∀ x ∈ g.nodes, x ∈ done) :
    Narrow g' (after done [top]) := by
  have isTop : ∀ x, Open g' (after done [top]) x → x = top := by
    rintro x ⟨member, isOpen⟩
    rcases member with old | new
    · exfalso
      rcases isOpen with free | ⟨y, nodeY, -, left⟩
      · rcases extended.covers x (lower.1 old) with below | ⟨y, nodeY, before⟩
        · exact free top ((extended.nodes top).mpr (.inr rfl)) below
        · exact free y ((extended.nodes y).mpr (.inl nodeY)) (extended.before y nodeY ▸ before)
      · rcases (extended.nodes y).mp nodeY with nodeY | rfl
        · exact left (.inl (all y nodeY))
        · exact left (.inr List.mem_cons_self)
    · exact List.mem_singleton.mp new
  exact fun x y openX openY => (isTop x openX).trans (isTop y openY).symm

variable (tops : ∀ x ∈ g'.before top, ∀ y ∈ g.nodes, x ∉ g.before y)

include tops

theorem open_iff (within : done ⊆ g.nodes) (x : T) :
    Open g' done x ↔ Open g done x := by
  refine and_congr_right fun member => ?_
  have node := within member
  have topLeft : top ∉ done := fun done => extended.fresh (within done)
  constructor
  · rintro (free | ⟨y, nodeY, before, left⟩)
    · exact .inl fun y nodeY before =>
        free y ((extended.nodes y).mpr (.inl nodeY)) (extended.before y nodeY ▸ before)
    · rcases (extended.nodes y).mp nodeY with nodeY | rfl
      · exact .inr ⟨y, nodeY, extended.before y nodeY ▸ before, left⟩
      · exact .inl (tops x before)
  · rintro (free | ⟨y, nodeY, before, left⟩)
    · rcases extended.covers x node with below | ⟨y, nodeY, before⟩
      · exact .inr ⟨top, (extended.nodes top).mpr (.inr rfl), below, topLeft⟩
      · exact absurd before (free y nodeY)
    · exact .inr ⟨y, (extended.nodes y).mpr (.inl nodeY), extended.before y nodeY ▸ before, left⟩

theorem narrow_iff (within : done ⊆ g.nodes) : Narrow g' done ↔ Narrow g done := by
  unfold Narrow
  simp only [extended.open_iff tops within]

theorem group (lower : Lower g done)
    (layered : Layered lt g done layers) (next : List T) (epochs : List (List T)) :
    group g' done next epochs (layers ++ [[top]])
      = group g done next epochs layers ++ [[top]] := by
  induction layered generalizing next epochs with
  | nil all =>
    simp only [List.nil_append, Layering.group, if_pos (extended.narrow_top lower all)]
    simp [push]
  | @cons done layer rest isLayer some _ ih =>
    have lower' := lower.after isLayer
    have narrow_iff := extended.narrow_iff tops lower'.1
    simp only [List.cons_append, Layering.group]
    by_cases narrow : Narrow g (Layering.after done layer)
    · rw [if_pos narrow, if_pos (narrow_iff.mpr narrow)]
      exact ih lower' _ _
    · rw [if_neg narrow, if_neg (narrow ∘ narrow_iff.mp)]
      exact ih lower' _ _

theorem epochs (ranked : Ranked g) {epochs : List (List T)}
    (isEpochs : Epochs lt g epochs) : Epochs lt g' (epochs ++ [[top]]) := by
  obtain ⟨layers, layered, rfl⟩ := isEpochs
  exact ⟨layers ++ [[top]], extended.layered ranked (lower_empty g) layered,
    (extended.group tops (lower_empty g) layered [] []).symm⟩

end Extends

end Layering
