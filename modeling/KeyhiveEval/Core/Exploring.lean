/-
**What the walk from the heads finds.**

`reverse_topsort` first collects everything that the heads refer to, with a stack and the set of what was
met. The heads lie in hash maps, so the walk takes them in an order of its own on every peer.

* `Explored.Exploring` — the invariant of the walk: what was met is reachable from the heads, and what it
  refers to was met as well or waits on the stack.
* **`GroupState.Sound.exploreHeads_exact`** — in a sound state the walk ends with the operations of the group.
* `GroupState.Grown.mem_of_mem_rebuildOrder` — a rebuild takes nothing else.
-/

import KeyhiveEval.Core.Heads
import KeyhiveEval.Core.GroupSample

set_option linter.unusedSectionVars false

namespace KeyhiveEval.Core

open Std Beekem OrderedSets

section

variable {T : Type} {hash : MembershipOperation T → MembershipDigest}

namespace Explored

def Met (hash : MembershipOperation T → MembershipDigest) (explored : Explored T)
    (op : MembershipOperation T) : Prop :=
  explored.allOps[hash op]? = some (op, op.afterAuth.map hash)

/-- **The invariant of the walk** from the operations `heads` with the given stack. -/
structure Exploring (hash : MembershipOperation T → MembershipDigest)
    (heads stack : List (MembershipOperation T)) (explored : Explored T) : Prop where
  keyed : ∀ digest entry, explored.allOps[digest]? = some entry →
    digest = hash entry.1 ∧ explored.Met hash entry.1
  reached : ∀ op, explored.Met hash op ∨ op ∈ stack → ∃ head ∈ heads, head.Reaches op
  heads : ∀ head ∈ heads, explored.Met hash head ∨ head ∈ stack
  closed : ∀ op, explored.Met hash op → ∀ before ∈ op.afterAuth, explored.Met hash before ∨ before ∈ stack
  revoked : ∀ sig digest, explored.revokedDependencies[sig]? = some digest →
    ∃ rev, explored.Met hash (.revocation rev) ∧ digest = hash (.revocation rev) ∧
      sig = rev.payload.revoke.signature
  noted : ∀ rev, explored.Met hash (.revocation rev) →
    rev.payload.revoke.signature ∈ explored.revokedDependencies

section Walk

variable {heads stack : List (MembershipOperation T)} {explored : Explored T} {op : MembershipOperation T}

theorem met_visit_self : (explored.visit hash op).Met hash op := by
  show (explored.allOps.insert _ _)[hash op]? = _
  rw [getElem?_insert_iff, if_pos rfl]

theorem met_visit {other : MembershipOperation T} (new : explored.allOps.contains (hash op) = false) :
    (explored.visit hash op).Met hash other ↔ explored.Met hash other ∨ other = op := by
  constructor
  · intro met
    change (explored.allOps.insert _ _)[hash other]? = _ at met
    rw [getElem?_insert_iff] at met
    split at met
    · exact .inr (congrArg Prod.fst (Option.some.inj met)).symm
    · exact .inl met
  · rintro (met | rfl)
    · show (explored.allOps.insert _ _)[hash other]? = _
      rw [getElem?_insert_iff, if_neg]
      · exact met
      · intro same
        rw [← same] at new
        have present := ExtTreeMap.contains_iff_mem.mpr (mem_iff_exists.mpr ⟨_, met⟩)
        rw [present] at new
        exact Bool.noConfusion new
    · exact met_visit_self

theorem Exploring.skip (exploring : Exploring hash heads (op :: stack) explored)
    (met : explored.Met hash op) : Exploring hash heads stack explored := by
  have settle {other : MembershipOperation T} (waits : explored.Met hash other ∨ other ∈ op :: stack) :
      explored.Met hash other ∨ other ∈ stack := by
    rcases waits with there | waits
    · exact .inl there
    · rcases List.mem_cons.mp waits with rfl | waits
      · exact .inl met
      · exact .inr waits
  exact {
    keyed := exploring.keyed
    reached := fun other waits => exploring.reached other (waits.imp_right (List.mem_cons_of_mem _))
    heads := fun head listed => settle (exploring.heads head listed)
    closed := fun other there before refers => settle (exploring.closed other there before refers)
    revoked := exploring.revoked
    noted := exploring.noted }

theorem mem_revokedDependencies_visit {sig : Signature} :
    sig ∈ (explored.visit hash op).revokedDependencies ↔ sig ∈ explored.revokedDependencies ∨
      ∃ rev, op = .revocation rev ∧ sig = rev.payload.revoke.signature := by
  cases op with
  | delegation dlg => simp [visit]
  | revocation rev =>
    show sig ∈ explored.revokedDependencies.insert _ _ ↔ _
    rw [ExtTreeMap.mem_insert, LawfulEqCmp.compare_eq_iff_eq, or_comm]
    simp [eq_comm]

/-- An operation that is met for the first time leaves what it refers to on the stack. -/
theorem Exploring.visit (exploring : Exploring hash heads (op :: stack) explored)
    (new : explored.allOps.contains (hash op) = false) :
    Exploring hash heads (op.afterAuth.reverse ++ stack) (explored.visit hash op) := by
  have settle {other : MembershipOperation T} (waits : explored.Met hash other ∨ other ∈ op :: stack) :
      (explored.visit hash op).Met hash other ∨ other ∈ op.afterAuth.reverse ++ stack := by
    rw [met_visit new, List.mem_append]
    rcases waits with there | waits
    · exact .inl (.inl there)
    · rcases List.mem_cons.mp waits with same | waits
      · exact .inl (.inr same)
      · exact .inr (.inr waits)
  refine ⟨?_, ?_, ?_, ?_, ?_, ?_⟩
  · intro digest entry found
    rw [met_visit new]
    change (explored.allOps.insert _ _)[digest]? = _ at found
    rw [getElem?_insert_iff] at found
    split at found
    · rename_i here
      obtain rfl := Option.some.inj found
      exact ⟨here, .inr rfl⟩
    · exact ⟨(exploring.keyed digest entry found).1, .inl (exploring.keyed digest entry found).2⟩
  · intro other waits
    rw [met_visit new, List.mem_append, List.mem_reverse] at waits
    obtain ⟨head, listed, above⟩ := exploring.reached op (.inr List.mem_cons_self)
    rcases waits with (there | rfl) | (refers | waits)
    · exact exploring.reached other (.inl there)
    · exact ⟨head, listed, above⟩
    · exact ⟨head, listed, above.tail refers⟩
    · exact exploring.reached other (.inr (List.mem_cons_of_mem _ waits))
  · exact fun head listed => settle (exploring.heads head listed)
  · intro other there before refers
    rcases (met_visit new).mp there with old | rfl
    · exact settle (exploring.closed other old before refers)
    · exact .inr (List.mem_append_left _ (List.mem_reverse.mpr refers))
  · intro sig digest found
    have old (found : explored.revokedDependencies[sig]? = some digest) :
        ∃ rev, (explored.visit hash op).Met hash (.revocation rev) ∧ digest = hash (.revocation rev) ∧
          sig = rev.payload.revoke.signature := by
      obtain ⟨rev, there, same⟩ := exploring.revoked sig digest found
      exact ⟨rev, (met_visit new).mpr (.inl there), same⟩
    cases op with
    | delegation dlg => exact old found
    | revocation rev =>
      change (explored.revokedDependencies.insert _ _)[sig]? = _ at found
      rw [getElem?_insert_iff] at found
      split at found
      · rename_i here
        exact ⟨rev, met_visit_self, (Option.some.inj found).symm, here⟩
      · exact old found
  · intro rev there
    rw [mem_revokedDependencies_visit]
    rcases (met_visit new).mp there with old | same
    · exact .inl (exploring.noted rev old)
    · exact .inr ⟨rev, same.symm, rfl⟩

theorem Exploring.explore
    (told : ∀ first second, (∃ head ∈ heads, head.Reaches first) → (∃ head ∈ heads, head.Reaches second) →
      hash first = hash second → first = second) (fuel : Nat) :
    ∀ {stack : List (MembershipOperation T)} {explored : Explored T}, Exploring hash heads stack explored →
      (stack.map MembershipOperation.weight).sum ≤ fuel →
      Exploring hash heads [] (explored.explore hash fuel stack) := by
  -- An operation weighs one more than what it refers to.
  induction fuel with
  | zero =>
    intro stack explored exploring enough
    cases stack with
    | nil => exact exploring
    | cons op stack =>
      rw [List.map_cons, List.sum_cons, op.weight_eq] at enough
      omega
  | succ fuel ih =>
    intro stack explored exploring enough
    cases stack with
    | nil => exact exploring
    | cons op stack =>
      rw [List.map_cons, List.sum_cons, op.weight_eq] at enough
      rw [Explored.explore]
      cases present : explored.allOps.contains (hash op) with
      | true =>
        obtain ⟨entry, found⟩ := mem_iff_exists.mp (ExtTreeMap.contains_iff_mem.mp present)
        obtain ⟨same, met⟩ := exploring.keyed _ _ found
        have here : op = entry.1 := told _ _ (exploring.reached op (.inr List.mem_cons_self))
          (exploring.reached _ (.inl met)) same
        exact ih (exploring.skip (here ▸ met)) (by omega)
      | false =>
        refine ih (exploring.visit present) ?_
        rw [List.map_append, List.sum_append, List.map_reverse, List.sum_reverse]
        omega

end Walk

/-- What the walk collects has every property of the heads that passes on to what is referred to. -/
theorem explore_all {P : MembershipOperation T → Prop} (closed : ∀ op, P op → ∀ before ∈ op.afterAuth, P before)
    (fuel : Nat) : ∀ {stack : List (MembershipOperation T)} {explored : Explored T}, (∀ op ∈ stack, P op) →
      (∀ (digest : MembershipDigest) entry, explored.allOps[digest]? = some entry → P entry.1) →
      ∀ (digest : MembershipDigest) entry, (explored.explore hash fuel stack).allOps[digest]? = some entry →
        P entry.1 := by
  induction fuel with
  | zero => exact fun _ all => all
  | succ fuel ih =>
    intro stack explored waits all
    cases stack with
    | nil => exact all
    | cons op stack =>
      have rest : ∀ other ∈ stack, P other := fun other listed => waits other (List.mem_cons_of_mem _ listed)
      have here : P op := waits op List.mem_cons_self
      rw [Explored.explore]
      split
      · exact ih rest all
      · refine ih (fun other listed => ?_) fun digest entry found => ?_
        · rcases List.mem_append.mp listed with refers | later
          · exact closed op here other (List.mem_reverse.mp refers)
          · exact rest other later
        · change (explored.allOps.insert _ _)[digest]? = _ at found
          rw [getElem?_insert_iff] at found
          split at found
          · rw [← Option.some.inj found]
            exact here
          · exact all digest entry found

/-- **What the walk has found:** what is reachable, and for every revoked delegation a revocation of
it. -/
structure Exact (hash : MembershipOperation T → MembershipDigest) (reachable : MembershipOperation T → Prop)
    (explored : Explored T) : Prop where
  keyed : ∀ digest entry, explored.allOps[digest]? = some entry →
    digest = hash entry.1 ∧ entry.2 = entry.1.afterAuth.map hash ∧ reachable entry.1
  met : ∀ op, explored.Met hash op ↔ reachable op
  revoked : ∀ sig digest, explored.revokedDependencies[sig]? = some digest →
    ∃ rev, reachable (.revocation rev) ∧ digest = hash (.revocation rev) ∧
      sig = rev.payload.revoke.signature
  noted : ∀ rev, reachable (.revocation rev) →
    rev.payload.revoke.signature ∈ explored.revokedDependencies

theorem Exploring.exact {heads : List (MembershipOperation T)} {explored : Explored T}
    (exploring : Exploring hash heads [] explored) :
    Exact hash (fun op => ∃ head ∈ heads, head.Reaches op) explored := by
  have met (op : MembershipOperation T) : explored.Met hash op ↔ ∃ head ∈ heads, head.Reaches op := by
    refine ⟨fun there => exploring.reached op (.inl there), ?_⟩
    rintro ⟨head, listed, above⟩
    induction above with
    | refl => exact (exploring.heads head listed).resolve_right List.not_mem_nil
    | tail _ refers ih => exact (exploring.closed _ ih _ refers).resolve_right List.not_mem_nil
  refine ⟨fun digest entry found => ?_, met, fun sig digest found => ?_, fun rev there => ?_⟩
  · obtain ⟨same, there⟩ := exploring.keyed digest entry found
    refine ⟨same, ?_, (met _).mp there⟩
    rw [Met, ← same, found] at there
    exact congrArg Prod.snd (Option.some.inj there)
  · obtain ⟨rev, there, same⟩ := exploring.revoked sig digest found
    exact ⟨rev, (met _).mp there, same⟩
  · exact exploring.noted rev ((met _).mpr there)

end Explored

/-! ### The walk from the heads of a group -/

namespace GroupState

variable {ops : List (MembershipOperation T)} {state : GroupState T}

/-- What is listed of a store in any order is what it holds. -/
theorem exists_mem_perm_iff_holds {V : Type} {store : ExtTreeMap MembershipDigest V}
    {list : List (MembershipDigest × V)} (perm : list.Perm store.toList) (value : V) :
    (∃ entry ∈ list, entry.2 = value) ↔ Holds store value := by
  constructor
  · rintro ⟨entry, listed, rfl⟩
    exact ⟨entry.1, holds_of_mem_toList (perm.mem_iff.mp listed)⟩
  · rintro ⟨key, found⟩
    exact ⟨(key, value), perm.mem_iff.mpr (ExtTreeMap.mem_toList_iff_getElem?_eq_some.mpr found), rfl⟩

theorem mem_headStack (order : HashOrder T) (op : MembershipOperation T) :
    op ∈ headStack order state.delegationHeads state.revocationHeads ↔ state.IsHead op := by
  rw [headStack, List.mem_reverse, List.mem_append, List.mem_map, List.mem_map]
  cases op with
  | delegation dlg =>
    simp only [MembershipOperation.delegation.injEq, reduceCtorEq, and_false, exists_false, or_false]
    exact exists_mem_perm_iff_holds (order.delegations_perm _) dlg
  | revocation rev =>
    simp only [MembershipOperation.revocation.injEq, reduceCtorEq, and_false, exists_false, false_or]
    exact exists_mem_perm_iff_holds (order.revocations_perm _) rev

/-- **The walk from the heads finds what is reachable from them**, in whatever order it takes them. -/
theorem exploreHeads_exact (within : ∀ head, state.IsHead head → head ∈ ops)
    (closed : ∀ op ∈ ops, ∀ before ∈ op.afterAuth, before ∈ ops) (identified : Identified hash ops)
    (order : HashOrder T) :
    (exploreHeads hash order state.delegationHeads state.revocationHeads).Exact hash state.Finds := by
  have found (op : MembershipOperation T) :
      (∃ head ∈ headStack order state.delegationHeads state.revocationHeads, head.Reaches op) ↔
        state.Finds op := by
    simp only [mem_headStack, Finds]
  have member {op : MembershipOperation T} (finds : state.Finds op) : op ∈ ops := by
    obtain ⟨head, isHead, above⟩ := finds
    exact above.mem closed (within head isHead)
  have begun : Explored.Exploring hash (headStack order state.delegationHeads state.revocationHeads)
      (headStack order state.delegationHeads state.revocationHeads) .empty := by
    have nothing (op : MembershipOperation T) : ¬ Explored.empty.Met hash op := by
      simp [Explored.Met, Explored.empty]
    refine ⟨?_, ?_, fun head listed => .inr listed, fun op there => (nothing op there).elim, ?_,
      fun rev there => (nothing _ there).elim⟩
    · intro digest entry there
      simp [Explored.empty] at there
    · rintro op (there | listed)
      · exact (nothing op there).elim
      · exact ⟨op, listed, .refl op⟩
    · intro sig digest there
      simp [Explored.empty] at there
  have ended := (begun.explore (fun first second one two => identified.digest first
    (member ((found first).mp one)) second (member ((found second).mp two))) _ (Nat.le_refl _)).exact
  simp only [found] at ended
  exact ended

/-- In a sound state the walk finds the operations of the group. -/
theorem Sound.exploreHeads_exact [DecidableEq T] (sound : Sound hash ops state)
    (identified : Identified hash ops) (order : HashOrder T) :
    (exploreHeads hash order state.delegationHeads state.revocationHeads).Exact hash (· ∈ ops) := by
  have found (op : MembershipOperation T) : state.Finds op ↔ op ∈ ops := by
    refine ⟨?_, sound.finds op⟩
    rintro ⟨head, isHead, above⟩
    exact above.mem sound.closed (sound.within head isHead)
  have exact := GroupState.exploreHeads_exact sound.within sound.closed identified order
  rw [funext fun op => propext (found op)] at exact
  exact exact

section Runs

variable [DecidableEq T]
  {admits : List (MembershipOperation T) → GroupState T → MembershipOperation T → Prop}

theorem holds_of_holds_insert {V : Type} {store : ExtTreeMap MembershipDigest V} {key : MembershipDigest}
    {value other : V} (holds : Holds (store.insert key value) other) : Holds store other ∨ other = value := by
  obtain ⟨key', found⟩ := holds
  rw [getElem?_insert_iff] at found
  split at found
  · exact .inr (Option.some.inj found).symm
  · exact .inl ⟨key', found⟩

variable {order : HashOrder T}

theorem holds_of_holds_headsAfter {heads : DelegationStore T} {dlg head : SignedDelegation T}
    (holds : Holds (delegationHeadsAfter hash order heads dlg) head) : Holds heads head ∨ head = dlg := by
  rw [delegationHeadsAfter] at holds
  generalize order.delegations heads.toList = entries at holds
  induction entries using List.reverseRecOn with
  | nil => exact .inl holds
  | append_singleton entries entry ih =>
    rw [List.foldl_append, List.foldl_cons, List.foldl_nil, headStep] at holds
    have inserted : Holds (if dlg.isAncestorOf entry.2 = true then entries.foldl (headStep hash dlg) heads
        else insertDelegation hash (entries.foldl (headStep hash dlg) heads) dlg) head := by
      split at holds
      · obtain ⟨key, found⟩ := holds
        rw [ExtTreeMap.getElem?_erase] at found
        split at found
        · simp at found
        · exact ⟨key, found⟩
      · exact holds
    split at inserted
    · exact ih inserted
    · rcases holds_of_holds_insert inserted with old | new
      · exact ih old
      · exact .inr new

variable {head op : MembershipOperation T}

theorem isHead_of_after
    (isHead : (state.after hash order op).IsHead head) : state.IsHead head ∨ head = op := by
  cases op with
  | delegation dlg =>
    cases head with
    | delegation head => exact (holds_of_holds_headsAfter isHead).imp_right (congrArg _)
    | revocation rev =>
      obtain ⟨key, found⟩ := isHead
      exact .inl ⟨key, ((getElem?_foldl_erase
        (fun rev => dlg.payload.afterRevocations.any fun listed => listed.same rev) _ _ key rev).mp found).1⟩
  | revocation rev =>
    cases head with
    | delegation head => exact .inl isHead
    | revocation head => exact (holds_of_holds_insert isHead).imp_right (congrArg _)

theorem mem_of_isHead_generated {id : Identifier} {dlgs : List (SignedDelegation T)}
    (isHead : (generated hash id dlgs).IsHead head) :
    head ∈ dlgs.map .delegation := by
  cases head with
  | revocation rev => exact absurd isHead (not_holds_empty rev)
  | delegation dlg =>
    change Holds (dlgs.foldl (insertDelegation hash) ∅) dlg at isHead
    refine List.mem_map_of_mem ?_
    induction dlgs using List.reverseRecOn with
    | nil => exact absurd isHead (not_holds_empty dlg)
    | append_singleton dlgs last ih =>
      rw [List.foldl_append] at isHead
      rcases holds_of_holds_insert isHead with old | rfl
      · exact List.mem_append_left _ (ih old)
      · simp

theorem Grown.within (grown : Grown hash admits ops state) :
    ∀ head, state.IsHead head → head ∈ ops := by
  induction grown with
  | start nonempty roots => exact fun head => mem_of_isHead_generated
  | add _ known _ accepted ih =>
    obtain ⟨-, rfl⟩ := add_ok hash accepted
    intro head isHead
    rcases isHead_of_after isHead with before | rfl
    · exact List.mem_append_left _ (ih head before)
    · simp

theorem Grown.closed (grown : Grown hash admits ops state) :
    ∀ op ∈ ops, ∀ before ∈ op.afterAuth, before ∈ ops := by
  induction grown with
  | start nonempty roots =>
    intro op member before refers
    obtain ⟨dlg, listed, rfl⟩ := List.mem_map.mp member
    obtain ⟨root, unrevoked, -⟩ := roots dlg listed
    simp [MembershipOperation.afterAuth, root, unrevoked] at refers
  | add _ known _ _ ih => exact closed_append ih known

/-- **A rebuild takes operations of the group only.** -/
theorem Grown.mem_of_mem_rebuildOrder (grown : Grown hash admits ops state)
    (taken : op ∈ Group.rebuildOrder hash order state) : op ∈ ops := by
  rw [Group.rebuildOrder, List.mem_reverse, List.mem_map] at taken
  obtain ⟨entry, listed, rfl⟩ := taken
  obtain ⟨digest, -, found⟩ := List.mem_filterMap.mp listed
  obtain ⟨stored, there, rfl⟩ := Option.map_eq_some_iff.mp found
  refine Explored.explore_all grown.closed _ (fun head listed => ?_) (fun digest entry there => ?_) digest stored there
  · exact grown.within head ((mem_headStack order head).mp listed)
  · simp [Explored.empty] at there

end Runs

end GroupState

/-! ### Groups -/

namespace Group

variable [DecidableEq T] {ops : List (MembershipOperation T)} {group : Group T}

def receive (hash : MembershipOperation T → MembershipDigest) (order : HashOrder T) (group : Group T)
    (stores : Stores T) : MembershipOperation T → Except AddError (MembershipDigest × Group T × Stores T)
  | .delegation dlg => group.receiveDelegation hash order stores dlg
  | .revocation rev => group.receiveRevocation hash order stores rev

/-- **The groups of all runs**, with the operations that were received on the way. A group is generated
with some delegations by its own key, and receives operations after those that they refer to. -/
inductive Grown (hash : MembershipOperation T → MembershipDigest) :
    List (MembershipOperation T) → Group T → Prop
  | generate {id : Identifier} {dlgs : List (SignedDelegation T)} {order : HashOrder T} (nonempty : dlgs ≠ [])
      (roots : ∀ dlg ∈ dlgs, dlg.payload.proof = none ∧ dlg.payload.afterRevocations = [] ∧
        dlg.issuer = id) :
      Grown hash (dlgs.map .delegation) (rebuild hash order ⟨∅, ∅, GroupState.generated hash id dlgs⟩)
  | receive {ops : List (MembershipOperation T)} {group group' : Group T} {stores stores' : Stores T}
      {order : HashOrder T} {op : MembershipOperation T} {digest : MembershipDigest}
      (grown : Grown hash ops group) (known : ∀ before ∈ op.afterAuth, before ∈ ops)
      (received : group.receive hash order stores op = .ok (digest, group', stores')) :
      Grown hash (ops ++ [op]) group'

/-- What is received is added to the causal state, and the members are computed anew. -/
theorem receive_ok {order : HashOrder T} {group group' : Group T} {stores stores' : Stores T}
    {op : MembershipOperation T} {digest : MembershipDigest}
    (received : group.receive hash order stores op = .ok (digest, group', stores')) :
    group.state.add hash order stores op = .ok (digest, group'.state, stores') ∧
      group' = rebuild hash order group' := by
  have from_add (added : (group.state.add hash order stores op >>= fun result =>
      pure (result.1, rebuild hash order { group with state := result.2.1 }, result.2.2)) =
        Except.ok (digest, group', stores')) :
      group.state.add hash order stores op = .ok (digest, group'.state, stores') ∧
        group' = rebuild hash order group' := by
    cases outcome : group.state.add hash order stores op with
    | error e => simp [outcome, bind, Except.bind] at added
    | ok result =>
      simp only [outcome, bind, Except.bind, pure, Except.pure, Except.ok.injEq, Prod.mk.injEq] at added
      obtain ⟨rfl, rfl, rfl⟩ := added
      exact ⟨rfl, rfl⟩
  cases op with
  | delegation dlg => exact from_add received
  | revocation rev => exact from_add received

theorem Grown.state (grown : Grown hash ops group) :
    GroupState.Grown hash (fun _ _ _ => True) ops group.state := by
  induction grown with
  | generate nonempty roots => exact .start nonempty roots
  | receive _ known received ih => exact ih.add known trivial (receive_ok received).1

/-- **The members of a group are those of its last rebuild.** -/
theorem Grown.rebuilt (grown : Grown hash ops group) :
    ∃ order : HashOrder T, group = rebuild hash order group := by
  cases grown with
  | generate nonempty roots => exact ⟨_, rfl⟩
  | receive _ _ received => exact ⟨_, (receive_ok received).2⟩

end Group

end

namespace Sample

/-- Every operation comes after those that it refers to. -/
def InOrder : List (MembershipOperation Unit) → List (MembershipOperation Unit) → Prop
  | _, [] => True
  | earlier, op :: ops => (∀ before ∈ op.afterAuth, before ∈ earlier) ∧ InOrder (earlier ++ [op]) ops

variable {order : HashOrder Unit}

theorem grown_foldlM (ops : List (MembershipOperation Unit)) :
    ∀ {earlier : List (MembershipOperation Unit)} {start result : Group Unit × Stores Unit},
      Group.Grown hash earlier start.1 → InOrder earlier ops →
      ops.foldlM (receive order) start = .ok result → Group.Grown hash (earlier ++ ops) result.1 := by
  induction ops with
  | nil =>
    intro earlier start result grown _ ran
    obtain rfl := Except.ok.inj ran
    rwa [List.append_nil]
  | cons op ops ih =>
    intro earlier start result grown inOrder ran
    rw [List.foldlM_cons] at ran
    cases outcome : start.1.receive hash order start.2 op with
    | error e =>
      cases op <;> simp [receive, Group.receive] at outcome ran <;> simp [outcome, bind, Except.bind] at ran
    | ok received =>
      have next : receive order start op = .ok received.2 := by
        cases op <;> simp only [Group.receive] at outcome <;>
          simp [receive, outcome, bind, Except.bind, pure, Except.pure]
      rw [next] at ran
      rw [List.append_cons]
      exact ih (grown.receive inOrder.1 outcome) inOrder.2 ran

variable {ops : List (MembershipOperation Unit)}

theorem grown_of_run {group : Group Unit}
    (inOrder : InOrder [.delegation admin] ops) (ran : run order admin ops = .ok group) :
    Group.Grown hash (.delegation admin :: ops) group := by
  have founded : Group.Grown hash [.delegation admin] (Group.new hash order admin ⟨∅, ∅⟩).1 :=
    .generate (List.cons_ne_nil admin []) (by simp [admin, delegation])
  rw [run] at ran
  cases outcome : ops.foldlM (receive order) (Group.new hash order admin ⟨∅, ∅⟩) with
  | error e => simp [outcome, bind, Except.bind] at ran
  | ok result =>
    simp only [outcome, bind, Except.bind, pure, Except.pure, Except.ok.injEq] at ran
    rw [← ran]
    exact grown_foldlM ops founded inOrder outcome

theorem group_of_view {α : Type} {view : Group Unit → α} {shown : α}
    (ran : (run order admin ops).map view = .ok shown) :
    ∃ group, run order admin ops = .ok group ∧ view group = shown := by
  cases outcome : run order admin ops with
  | error e => simp [outcome, Except.map] at ran
  | ok group =>
    rw [outcome] at ran
    exact ⟨group, rfl, Except.ok.inj ran⟩

end Sample

end KeyhiveEval.Core
