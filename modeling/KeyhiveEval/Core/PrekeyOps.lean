/-
**`keyhive.rs`: the prekey operations that an agent can reach.**

An agent can reach the prekeys of the active agent, its own, and those of the groups and documents that it is a member
of and of their other members. They can be computed for one agent, or for all agents at once.

* `reachablePrekeyOpsForAgent` — for one agent, under the identifiers of the principals. The operations of a group or
  document are added to what there is under its identifier; those of a member only where there are none.
* `reachablePrekeyOpsForAllAgents` — for all agents. Under an identifier are the operations of the principal that the walk
  came to first, and each agent has a set of identifiers.
* `Coherent` — the principals under one identifier have the same operations. An individual that became a group is a
  principal besides that group for all groups that it was a member of before.
* `Sortable` — no principal has a circle of rotations. The sort of a circle never ends, and with it the whole call.
* **`prekeyOpsAgree_of_coherent`** — the two agree on all agents if principals are coherent and sortable. Conversely, if
  they do, the agents under one identifier are coherent.
-/

import KeyhiveEval.Beekem.Popping
import KeyhiveEval.Core.Keyhive
import KeyhiveEval.Core.GroupSample

namespace KeyhiveEval.Core

open Std Beekem OrderedSets Stateful

variable {T : Type} {keyHash : KeyOp → KeyOpDigest}

namespace CaMap

/-- The entries of the other map, in the place of those under the same digests. -/
def extend (map other : CaMap keyHash) : CaMap keyHash where
  entries := other.entries.foldl (fun all digest op => all.insert digest op) map.entries
  keyed {digest op} found := by
    rw [getElem?_foldl_insert, Option.or_eq_some_iff] at found
    exact found.elim other.keyed fun old => map.keyed old.2

theorem entries_injective {map other : CaMap keyHash} (same : map.entries = other.entries) : map = other := by
  cases map
  cases other
  cases same
  rfl

theorem extend_self (map : CaMap keyHash) : map.extend map = map := by
  refine entries_injective (ExtTreeMap.ext_getElem? fun digest => ?_)
  rw [extend, getElem?_foldl_insert, Option.or_self]

theorem empty_extend (map : CaMap keyHash) : empty.extend map = map := by
  refine entries_injective (ExtTreeMap.ext_getElem? fun digest => ?_)
  rw [extend, getElem?_foldl_insert, empty, ExtTreeMap.getElem?_empty, Option.or_none]

end CaMap

/-- Prekey operations under the identifiers of principals. -/
abbrev KeyOpMaps (keyHash : KeyOp → KeyOpDigest) := ExtTreeMap Identifier (CaMap keyHash)

/-- Sorted prekey operations, and for each agent the identifiers that it can reach. -/
structure AllReachablePrekeyOps where
  ops : ExtTreeMap Identifier (List KeyOp)
  index : ExtTreeMap Identifier (ExtTreeSet Identifier)

/-- Sort the operations under each identifier. Nothing is returned if one of the sorts does not end within the fuel. -/
def KeyOpMaps.topsort (fuel : Nat) (keyOrder : KeyOpOrder) (map : KeyOpMaps keyHash) :
    Option (ExtTreeMap Identifier (List KeyOp)) :=
  if map.toList.all fun entry => (KeyOp.topsort fuel (entry.2.values keyOrder)).isSome then
    some (map.map fun _ keys => (KeyOp.topsort fuel (keys.values keyOrder)).getD [])
  else none

namespace Keyhive

variable (order : MemberOrder T) (keyhive : Keyhive T keyHash)

/-! ### For one agent -/

def addManyKeys (map : KeyOpMaps keyHash) (agentId : Identifier) (keyOps : CaMap keyHash) : KeyOpMaps keyHash :=
  map.insert agentId ((map.getD agentId .empty).extend keyOps)

/-- The operations of a member, if there are none under its identifier. -/
def addMember (map : KeyOpMaps keyHash) (entry : Identifier × AgentRef × Access) : KeyOpMaps keyHash :=
  if map.contains entry.1 then map else addManyKeys map entry.1 (keyhive.keyOpsAt entry.2.1.place)

/-- The operations of a group or document with the agent as a member, and of its members. -/
def addReached (agentId : Identifier) (map : KeyOpMaps keyHash) (source : Identifier × Nat) : KeyOpMaps keyHash :=
  let transitive := keyhive.transitiveMembers order source
  if transitive.contains agentId then
    transitive.toList.foldl keyhive.addMember (addManyKeys map source.1 (keyhive.keyOpsAt source.2))
  else map

/-- What an agent can reach, before it is sorted. -/
def reachableKeyOps (agent : AgentRef) : KeyOpMaps keyHash :=
  keyhive.sources.foldl (keyhive.addReached order agent.agent.id)
    (addManyKeys (addManyKeys ∅ keyhive.active.1 (keyhive.keyOpsAt keyhive.active.2)) agent.agent.id
      (keyhive.keyOpsAt agent.place))

def reachablePrekeyOpsForAgent (fuel : Nat) (keyOrder : KeyOpOrder) (agent : AgentRef) :
    Option (ExtTreeMap Identifier (List KeyOp)) :=
  (keyhive.reachableKeyOps order agent).topsort fuel keyOrder

/-! ### For all agents -/

/-- The operations of a group or document, and of its members, under identifiers that are vacant. -/
def cacheSource (cache : KeyOpMaps keyHash) (source : Identifier × Nat) : KeyOpMaps keyHash :=
  (keyhive.transitiveMembers order source).toList.foldl
    (fun cache entry => cache.insertIfNew entry.1 (keyhive.keyOpsAt entry.2.1.place))
    (cache.insertIfNew source.1 (keyhive.keyOpsAt source.2))

/-- `key_ops_cache` -/
def keyOpsCache : KeyOpMaps keyHash :=
  keyhive.individuals.foldl (fun cache indie => cache.insertIfNew indie.1 (keyhive.keyOpsAt indie.2))
    (keyhive.sources.foldl (keyhive.cacheSource order)
      ((∅ : KeyOpMaps keyHash).insert keyhive.active.1 (keyhive.keyOpsAt keyhive.active.2)))

/-- An individual reaches the active agent and itself. -/
def indexIndividual (index : ExtTreeMap Identifier (ExtTreeSet Identifier)) (indie : Identifier × Nat) :
    ExtTreeMap Identifier (ExtTreeSet Identifier) :=
  insertAt (insertAt index indie.1 keyhive.active.1) indie.1 indie.1

/-- A member reaches the active agent, itself, the group or document, and the other members. -/
def indexSource (index : ExtTreeMap Identifier (ExtTreeSet Identifier)) (source : Identifier × Nat) :
    ExtTreeMap Identifier (ExtTreeSet Identifier) :=
  let members := (keyhive.transitiveMembers order source).keys
  members.foldl (fun index agentId =>
    (keyhive.active.1 :: agentId :: source.1 :: members).foldl (fun index id => insertAt index agentId id) index) index

def prekeyIndex : ExtTreeMap Identifier (ExtTreeSet Identifier) :=
  keyhive.sources.foldl (keyhive.indexSource order)
    (keyhive.individuals.foldl keyhive.indexIndividual (insertAt ∅ keyhive.active.1 keyhive.active.1))

def reachablePrekeyOpsForAllAgents (fuel : Nat) (keyOrder : KeyOpOrder) : Option AllReachablePrekeyOps := do
  let ops ← (keyhive.keyOpsCache order).topsort fuel keyOrder
  return { ops, index := keyhive.prekeyIndex order }

/-! ### Agents and principals -/

/-- The active agent, a registered individual, or a member of a group or document. -/
inductive IsAgent : AgentRef → Prop
  | active : IsAgent ⟨⟨.active, keyhive.active.1⟩, keyhive.active.2⟩
  | individual {indie : Identifier × Nat} (registered : indie ∈ keyhive.individuals) :
      IsAgent ⟨⟨.individual, indie.1⟩, indie.2⟩
  | member {source : Identifier × Nat} {agent : AgentRef} {access : Access} (registered : source ∈ keyhive.sources)
      (through : (keyhive.transitiveMembers order source)[agent.agent.id]? = some (agent, access)) : IsAgent agent

/-- The principals under an identifier. -/
inductive Stands : Identifier → Nat → Prop
  | active : Stands keyhive.active.1 keyhive.active.2
  | individual {indie : Identifier × Nat} (registered : indie ∈ keyhive.individuals) : Stands indie.1 indie.2
  | source {source : Identifier × Nat} (registered : source ∈ keyhive.sources) : Stands source.1 source.2
  | member {source : Identifier × Nat} {id : Identifier} {agent : AgentRef} {access : Access}
      (registered : source ∈ keyhive.sources)
      (through : (keyhive.transitiveMembers order source)[id]? = some (agent, access)) : Stands id agent.place

/-- **Principals under one identifier have the same prekey operations.** -/
def Coherent : Prop :=
  ∀ id place place', keyhive.Stands order id place → keyhive.Stands order id place' →
    keyhive.keyOpsAt place = keyhive.keyOpsAt place'

/-- **Every principal has operations that can be sorted.** -/
def Sortable : Prop :=
  ∀ id place, keyhive.Stands order id place → ∀ keyOrder, KeyOp.Acyclic ((keyhive.keyOpsAt place).values keyOrder)

/-- The two agree on an agent before the operations are sorted. -/
structure MapsAgree (agent : AgentRef) : Prop where
  index : ∀ id, id ∈ (keyhive.prekeyIndex order).getD agent.agent.id ∅ ↔ id ∈ keyhive.reachableKeyOps order agent
  cached : ∀ id ∈ keyhive.reachableKeyOps order agent,
    (keyhive.keyOpsCache order)[id]? = (keyhive.reachableKeyOps order agent)[id]?

/-- **The two agree on an agent**: both return, and under the same identifiers are the same operations, in whatever
order the maps are walked. -/
structure PrekeyOpsAgree (agent : AgentRef) : Prop where
  returns : ∀ keyOrder, ∃ fuel, (keyhive.reachablePrekeyOpsForAllAgents order fuel keyOrder).isSome ∧
    (keyhive.reachablePrekeyOpsForAgent order fuel keyOrder agent).isSome
  agrees : ∀ fuel fuel' keyOrder keyOrder' all one,
    keyhive.reachablePrekeyOpsForAllAgents order fuel keyOrder = some all →
    keyhive.reachablePrekeyOpsForAgent order fuel' keyOrder' agent = some one →
    (∀ id, id ∈ all.index.getD agent.agent.id ∅ ↔ id ∈ one) ∧
      ∀ id ∈ one, ∃ sorted sorted', all.ops[id]? = some sorted ∧ one[id]? = some sorted' ∧
        ∀ op, op ∈ sorted ↔ op ∈ sorted'

section Agreement

variable {order keyhive} {agent : AgentRef} {map : KeyOpMaps keyHash} {id : Identifier}

section Topsort

variable {fuel : Nat} {keyOrder : KeyOpOrder} {sorted : ExtTreeMap Identifier (List KeyOp)}
  (sorts : map.topsort fuel keyOrder = some sorted)

include sorts

theorem mem_topsort : id ∈ sorted ↔ id ∈ map := by
  rw [KeyOpMaps.topsort, Option.ite_none_right_eq_some] at sorts
  rw [← Option.some.inj sorts.2]
  exact ExtTreeMap.mem_map

/-- Under an identifier is what comes from an addition. -/
theorem listed_topsort {keys : CaMap keyHash} (found : map[id]? = some keys) :
    ∃ ops, sorted[id]? = some ops ∧ ∀ op, op ∈ ops ↔ KeyOp.FromAddition (keys.values keyOrder) op := by
  rw [KeyOpMaps.topsort, Option.ite_none_right_eq_some, List.all_eq_true] at sorts
  obtain ⟨ops, ended⟩ :=
    Option.isSome_iff_exists.mp (sorts.1 (id, keys) (ExtTreeMap.mem_toList_iff_getElem?_eq_some.mpr found))
  refine ⟨ops, ?_, KeyOp.mem_sorted_iff ⟨fuel, ended⟩⟩
  rw [← Option.some.inj sorts.2, ExtTreeMap.getElem?_map, found, Option.map_some, ended, Option.getD_some]

end Topsort

/-- **Enough fuel sorts all of a map** if there is enough for each entry. -/
theorem exists_topsort {keyOrder : KeyOpOrder}
    (acyclic : ∀ (id : Identifier) (keys : CaMap keyHash), map[id]? = some keys → KeyOp.Acyclic (keys.values keyOrder)) :
    ∃ fuel, ∀ more, fuel ≤ more → (map.topsort more keyOrder).isSome := by
  have each : ∀ entry ∈ map.toList, ∃ fuel, ∀ more, fuel ≤ more →
      (KeyOp.topsort more (entry.2.values keyOrder)).isSome := by
    intro entry listed
    obtain ⟨sorted, fuel, ended⟩ :=
      (acyclic entry.1 entry.2 (ExtTreeMap.mem_toList_iff_getElem?_eq_some.mp listed)).exists_unfolds
    exact ⟨fuel, fun more enough => Option.isSome_iff_exists.mpr ⟨sorted, Unfolding.unfold_mono enough ended⟩⟩
  choose! fuel ended using each
  refine ⟨(map.toList.map fuel).sum, fun more enough => ?_⟩
  rw [KeyOpMaps.topsort, if_pos]
  · rfl
  · refine List.all_eq_true.mpr fun entry listed => ended entry listed more (Nat.le_trans ?_ enough)
    exact List.le_sum_of_mem (List.mem_map_of_mem listed)

variable {keys : CaMap keyHash}

theorem fromAddition_values (keyOrder keyOrder' : KeyOpOrder) {op : KeyOp}
    (rooted : KeyOp.FromAddition (keys.values keyOrder) op) : KeyOp.FromAddition (keys.values keyOrder') op := by
  have within {op : KeyOp} (member : op ∈ keys.values keyOrder) : op ∈ keys.values keyOrder' :=
    CaMap.mem_values.mpr (CaMap.mem_values.mp member)
  induction rooted with
  | addition member adds => exact .addition (within member) adds
  | rotation _ member rotates ih => exact .rotation ih (within member) rotates

/-- What is sorted does not depend on the order in which the map is walked. -/
theorem MapsAgree.same_ops (agree : keyhive.MapsAgree order agent) {fuel fuel' : Nat} {keyOrder keyOrder' : KeyOpOrder}
    {all : AllReachablePrekeyOps} {one : ExtTreeMap Identifier (List KeyOp)}
    (isAll : keyhive.reachablePrekeyOpsForAllAgents order fuel keyOrder = some all)
    (isOne : keyhive.reachablePrekeyOpsForAgent order fuel' keyOrder' agent = some one) :
    (∀ id, id ∈ all.index.getD agent.agent.id ∅ ↔ id ∈ one) ∧
      ∀ id ∈ one, ∃ sorted sorted', all.ops[id]? = some sorted ∧ one[id]? = some sorted' ∧
        ∀ op, op ∈ sorted ↔ op ∈ sorted' := by
  obtain ⟨ops, sorts, returns⟩ := Option.bind_eq_some_iff.mp isAll
  obtain rfl := Option.some.inj returns
  refine ⟨fun id => (agree.index id).trans (mem_topsort isOne).symm, fun id reached => ?_⟩
  have reached := (mem_topsort isOne).mp reached
  obtain ⟨keys, found⟩ := mem_iff_exists.mp reached
  obtain ⟨sorted, there, lists⟩ := listed_topsort sorts ((agree.cached id reached).trans found)
  obtain ⟨sorted', there', lists'⟩ := listed_topsort isOne found
  refine ⟨sorted, sorted', there, there', fun op => ?_⟩
  rw [lists, lists']
  exact ⟨fromAddition_values _ _, fromAddition_values _ _⟩

/-! ### Which identifiers there are -/

variable {agentId : Identifier}

theorem mem_addManyKeys {keyOps : CaMap keyHash} :
    id ∈ addManyKeys map agentId keyOps ↔ id = agentId ∨ id ∈ map := mem_map_insert_iff

variable {entry : Identifier × AgentRef × Access}

theorem mem_addMember :
    id ∈ keyhive.addMember map entry ↔ id ∈ map ∨ id = entry.1 := by
  rw [addMember]
  split
  · rename_i held
    refine ⟨.inl, ?_⟩
    rintro (old | rfl)
    · exact old
    · exact ExtTreeMap.mem_iff_contains.mpr held
  · rw [mem_addManyKeys, or_comm]

theorem exists_mem_toList {members : ExtTreeMap Identifier (AgentRef × Access)} :
    (∃ entry ∈ members.toList, id = entry.1) ↔ id ∈ members := by
  rw [← ExtTreeMap.mem_keys, ← ExtTreeMap.map_fst_toList_eq_keys, List.mem_map]
  exact exists_congr fun entry => and_congr_right fun _ => eq_comm

variable {source : Identifier × Nat}

theorem mem_addReached :
    id ∈ keyhive.addReached order agentId map source ↔ id ∈ map ∨ agentId ∈ keyhive.transitiveMembers order source ∧
      (id = source.1 ∨ id ∈ keyhive.transitiveMembers order source) := by
  rw [addReached]
  split
  · rename_i through
    rw [foldl_or_iff (f := keyhive.addMember) (P := fun map => id ∈ map) fun _ _ => mem_addMember, exists_mem_toList,
      mem_addManyKeys, eq_true (ExtTreeMap.mem_iff_contains.mpr through), true_and, or_comm (a := id = source.1), or_assoc]
  · rename_i outside
    rw [eq_false (mt ExtTreeMap.mem_iff_contains.mp outside), false_and, or_false]

theorem mem_reachableKeyOps : id ∈ keyhive.reachableKeyOps order agent
    ↔ (id = agent.agent.id ∨ id = keyhive.active.1) ∨ ∃ source ∈ keyhive.sources,
      agent.agent.id ∈ keyhive.transitiveMembers order source ∧
        (id = source.1 ∨ id ∈ keyhive.transitiveMembers order source) := by
  rw [reachableKeyOps, foldl_or_iff (f := keyhive.addReached order agent.agent.id) (P := fun map => id ∈ map)
    fun _ _ => mem_addReached, mem_addManyKeys, mem_addManyKeys]
  simp

variable {index : ExtTreeMap Identifier (ExtTreeSet Identifier)}

theorem mem_index_foldl {ids : List Identifier} {agentId' : Identifier} :
    id ∈ (ids.foldl (fun index id => insertAt index agentId id) index).getD agentId' ∅
      ↔ id ∈ index.getD agentId' ∅ ∨ agentId' = agentId ∧ id ∈ ids := by
  rw [foldl_or_iff (P := fun index => id ∈ ExtTreeMap.getD index agentId' ∅)
    (Q := fun new => agentId' = agentId ∧ id = new) fun index new => mem_getD_insertAt.trans or_comm]
  refine or_congr_right ⟨?_, ?_⟩
  · rintro ⟨new, listed, here, rfl⟩
    exact ⟨here, listed⟩
  · exact fun ⟨here, listed⟩ => ⟨id, listed, here, rfl⟩

theorem mem_indexSource : id ∈ (keyhive.indexSource order index source).getD agentId ∅
      ↔ id ∈ index.getD agentId ∅ ∨ agentId ∈ keyhive.transitiveMembers order source ∧
        (id = keyhive.active.1 ∨ id = agentId ∨ id = source.1 ∨ id ∈ keyhive.transitiveMembers order source) := by
  rw [indexSource, foldl_or_iff (P := fun index => id ∈ ExtTreeMap.getD index agentId ∅)
    (Q := fun member => agentId = member ∧ id ∈ keyhive.active.1 :: member :: source.1
      :: (keyhive.transitiveMembers order source).keys) fun index member => mem_index_foldl]
  refine or_congr_right ⟨?_, ?_⟩
  · rintro ⟨member, listed, rfl, among⟩
    simp only [List.mem_cons, ExtTreeMap.mem_keys] at among
    exact ⟨ExtTreeMap.mem_keys.mp listed, among⟩
  · rintro ⟨through, among⟩
    refine ⟨agentId, ExtTreeMap.mem_keys.mpr through, rfl, ?_⟩
    simpa only [List.mem_cons, ExtTreeMap.mem_keys] using among

theorem mem_prekeyIndex : id ∈ (keyhive.prekeyIndex order).getD agentId ∅
    ↔ ((agentId = keyhive.active.1 ∧ id = keyhive.active.1) ∨ ∃ indie ∈ keyhive.individuals, agentId = indie.1 ∧
        (id = keyhive.active.1 ∨ id = agentId))
      ∨ ∃ source ∈ keyhive.sources, agentId ∈ keyhive.transitiveMembers order source ∧
        (id = keyhive.active.1 ∨ id = agentId ∨ id = source.1 ∨ id ∈ keyhive.transitiveMembers order source) := by
  have individual (index : ExtTreeMap Identifier (ExtTreeSet Identifier)) (indie : Identifier × Nat) :
      id ∈ (keyhive.indexIndividual index indie).getD agentId ∅
        ↔ id ∈ index.getD agentId ∅ ∨ agentId = indie.1 ∧ (id = keyhive.active.1 ∨ id = agentId) := by
    rw [indexIndividual, mem_getD_insertAt, mem_getD_insertAt]
    grind
  rw [prekeyIndex, foldl_or_iff (f := keyhive.indexSource order)
    (P := fun index => id ∈ ExtTreeMap.getD index agentId ∅) fun _ _ => mem_indexSource,
    foldl_or_iff (f := keyhive.indexIndividual) (P := fun index => id ∈ ExtTreeMap.getD index agentId ∅) individual,
    mem_getD_insertAt]
  simp

/-- **An agent is indexed under what it reaches.** -/
theorem mem_index_iff (isAgent : keyhive.IsAgent order agent) (id : Identifier) :
    id ∈ (keyhive.prekeyIndex order).getD agent.agent.id ∅ ↔ id ∈ keyhive.reachableKeyOps order agent := by
  rw [mem_prekeyIndex, mem_reachableKeyOps]
  constructor
  · rintro ((⟨-, here⟩ | ⟨_, -, -, here⟩) | ⟨source, registered, through, here⟩)
    · exact .inl (.inr here)
    · exact .inl here.symm
    · rcases here with isActive | isAgent | reached
      · exact .inl (.inr isActive)
      · exact .inl (.inl isAgent)
      · exact .inr ⟨source, registered, through, reached⟩
  · rintro (here | ⟨source, registered, through, reached⟩)
    · -- Every agent reaches itself and the active agent.
      cases isAgent with
      | active => exact .inl (.inl ⟨rfl, or_self_iff.mp here⟩)
      | individual registered => exact .inl (.inr ⟨_, registered, rfl, here.symm⟩)
      | member registered through =>
        have through := mem_iff_exists.mpr ⟨_, through⟩
        exact .inr ⟨_, registered, through, here.elim (fun own => .inr (.inl own)) .inl⟩
    · exact .inr ⟨source, registered, through, .inr (.inr reached)⟩

/-! ### What is under an identifier -/

/-- Under each identifier are the operations of a principal that stands there. -/
def Standing (order : MemberOrder T) (keyhive : Keyhive T keyHash) (map : KeyOpMaps keyHash) : Prop :=
  ∀ (id : Identifier) (keys : CaMap keyHash), map[id]? = some keys →
    ∃ place, keyhive.Stands order id place ∧ keyhive.keyOpsAt place = keys

variable {place : Nat}

theorem standing_insert (standing : Standing order keyhive map)
    (stands : keyhive.Stands order id place) : Standing order keyhive (map.insert id (keyhive.keyOpsAt place)) := by
  intro id' keys found
  rw [getElem?_insert_iff] at found
  split at found
  · rename_i here
    exact ⟨place, here ▸ stands, Option.some.inj found⟩
  · exact standing id' keys found

theorem standing_insertIfNew
    (standing : Standing order keyhive map) (stands : keyhive.Stands order id place) :
    Standing order keyhive (map.insertIfNew id (keyhive.keyOpsAt place)) := by
  intro id' keys found
  rw [ExtTreeMap.getElem?_insertIfNew] at found
  split at found
  · rename_i here
    rw [LawfulEqCmp.compare_eq_iff_eq.mp here.1] at stands
    exact ⟨place, stands, Option.some.inj found⟩
  · exact standing id' keys found

variable {α : Type} {list : List α}

theorem standing_foldl {f : KeyOpMaps keyHash → α → KeyOpMaps keyHash} (standing : Standing order keyhive map)
    (step : ∀ map, Standing order keyhive map → ∀ a ∈ list, Standing order keyhive (f map a)) :
    Standing order keyhive (list.foldl f map) :=
  List.foldlRecOn list f standing step

/-- What is added to the operations of another principal of the same identifier changes nothing. -/
theorem standing_addManyKeys (coherent : keyhive.Coherent order)
    (standing : Standing order keyhive map) (stands : keyhive.Stands order id place) :
    Standing order keyhive (addManyKeys map id (keyhive.keyOpsAt place)) := by
  have same : (map.getD id .empty).extend (keyhive.keyOpsAt place) = keyhive.keyOpsAt place := by
    rw [ExtTreeMap.getD_eq_getD_getElem?]
    cases found : map[id]? with
    | none => exact CaMap.empty_extend _
    | some keys =>
      obtain ⟨place', stands', rfl⟩ := standing id keys found
      rw [coherent id place' place stands' stands]
      exact CaMap.extend_self _
  rw [addManyKeys, same]
  exact standing_insert standing stands

theorem standing_empty : Standing order keyhive ∅ := by
  intro id keys found
  simp at found

theorem stands_of_entry (registered : source ∈ keyhive.sources)
    (listed : entry ∈ (keyhive.transitiveMembers order source).toList) :
    keyhive.Stands order entry.1 entry.2.1.place :=
  .member registered (ExtTreeMap.mem_toList_iff_getElem?_eq_some.mp listed)

theorem IsAgent.stands (isAgent : keyhive.IsAgent order agent) : keyhive.Stands order agent.agent.id agent.place := by
  cases isAgent with
  | active => exact .active
  | individual registered => exact .individual registered
  | member registered through => exact .member registered through

theorem standing_reachableKeyOps (coherent : keyhive.Coherent order) (isAgent : keyhive.IsAgent order agent) :
    Standing order keyhive (keyhive.reachableKeyOps order agent) := by
  refine standing_foldl ?_ fun map standing source registered => ?_
  · exact standing_addManyKeys coherent (standing_addManyKeys coherent standing_empty .active) isAgent.stands
  · rw [addReached]
    split
    · refine standing_foldl (standing_addManyKeys coherent standing (.source registered))
        fun map standing entry listed => ?_
      rw [addMember]
      split
      · exact standing
      · exact standing_addManyKeys coherent standing (stands_of_entry registered listed)
    · exact standing

theorem standing_keyOpsCache : Standing order keyhive (keyhive.keyOpsCache order) := by
  refine standing_foldl (standing_foldl (standing_insert standing_empty .active) fun map standing source registered => ?_)
    fun map standing indie registered => standing_insertIfNew standing (.individual registered)
  exact standing_foldl (standing_insertIfNew standing (.source registered)) fun map standing entry listed =>
    standing_insertIfNew standing (stands_of_entry registered listed)

theorem mem_insertIfNew_iff {id' : Identifier} :
    id ∈ map.insertIfNew id' keys ↔ id ∈ map ∨ id = id' := by
  rw [ExtTreeMap.mem_insertIfNew, LawfulEqCmp.compare_eq_iff_eq, or_comm, eq_comm]

theorem mem_foldl_insertIfNew {key : α → Identifier} {keys : α → CaMap keyHash} :
    id ∈ list.foldl (fun map a => map.insertIfNew (key a) (keys a)) map ↔ id ∈ map ∨ ∃ a ∈ list, id = key a :=
  foldl_or_iff (f := fun map a => map.insertIfNew (key a) (keys a)) (P := fun map : KeyOpMaps keyHash => id ∈ map)
    (Q := fun a => id = key a) (fun _ _ => mem_insertIfNew_iff) list map

theorem mem_keyOpsCache (stands : keyhive.Stands order id place) :
    id ∈ keyhive.keyOpsCache order := by
  have source (cache : KeyOpMaps keyHash) (source : Identifier × Nat) : id ∈ keyhive.cacheSource order cache source
      ↔ id ∈ cache ∨ (id = source.1 ∨ id ∈ keyhive.transitiveMembers order source) := by
    rw [cacheSource, mem_foldl_insertIfNew, mem_insertIfNew_iff, exists_mem_toList, or_assoc]
  rw [keyOpsCache, mem_foldl_insertIfNew,
    foldl_or_iff (f := keyhive.cacheSource order) (P := fun cache => id ∈ cache) source, mem_map_insert_iff]
  cases stands with
  | active => exact .inl (.inl (.inl rfl))
  | individual registered => exact .inr ⟨_, registered, rfl⟩
  | source registered => exact .inl (.inr ⟨_, registered, .inl rfl⟩)
  | member registered through => exact .inl (.inr ⟨_, registered, .inr (mem_iff_exists.mpr ⟨_, through⟩)⟩)

theorem mapsAgree_of_coherent (coherent : keyhive.Coherent order) (isAgent : keyhive.IsAgent order agent) :
    keyhive.MapsAgree order agent := by
  refine ⟨mem_index_iff isAgent, fun id reached => ?_⟩
  obtain ⟨keys, found⟩ := mem_iff_exists.mp reached
  obtain ⟨place, stands, rfl⟩ := standing_reachableKeyOps coherent isAgent id keys found
  obtain ⟨keys', found'⟩ := mem_iff_exists.mp (mem_keyOpsCache stands)
  obtain ⟨place', stands', rfl⟩ := standing_keyOpsCache id keys' found'
  rw [found, found', coherent id place' place stands' stands]

theorem exists_topsort_of_standing (sortable : keyhive.Sortable order) (standing : Standing order keyhive map)
    (keyOrder : KeyOpOrder) : ∃ fuel, ∀ more, fuel ≤ more → (map.topsort more keyOrder).isSome := by
  refine exists_topsort fun id keys found => ?_
  obtain ⟨place, stands, rfl⟩ := standing id keys found
  exact sortable id place stands keyOrder

theorem prekeyOpsAgree (coherent : keyhive.Coherent order) (sortable : keyhive.Sortable order)
    (isAgent : keyhive.IsAgent order agent) : keyhive.PrekeyOpsAgree order agent where
  returns keyOrder := by
    obtain ⟨fuel, all⟩ := exists_topsort_of_standing sortable standing_keyOpsCache keyOrder
    obtain ⟨fuel', one⟩ := exists_topsort_of_standing sortable (standing_reachableKeyOps coherent isAgent) keyOrder
    obtain ⟨ops, sorts⟩ := Option.isSome_iff_exists.mp (all (max fuel fuel') (le_max_left _ _))
    refine ⟨max fuel fuel', ?_, one _ (le_max_right _ _)⟩
    rw [reachablePrekeyOpsForAllAgents, sorts]
    rfl
  agrees _ _ _ _ _ _ := (mapsAgree_of_coherent coherent isAgent).same_ops

/-! ### The agents under one identifier -/

/-- Nothing is added to the operations of an agent, unless it is the active agent or its own member. -/
theorem own_reachableKeyOps (inactive : agent.agent.id ≠ keyhive.active.1)
    (outside : ∀ source ∈ keyhive.sources, source.1 = agent.agent.id →
      agent.agent.id ∉ keyhive.transitiveMembers order source) :
    (keyhive.reachableKeyOps order agent)[agent.agent.id]? = some (keyhive.keyOpsAt agent.place) := by
  have kept {map : KeyOpMaps keyHash} {id : Identifier} {keys : CaMap keyHash} (other : agent.agent.id ≠ id) :
      (addManyKeys map id keys)[agent.agent.id]? = map[agent.agent.id]? := by
    rw [addManyKeys, getElem?_insert_iff, if_neg other]
  refine List.foldlRecOn (motive := fun map : KeyOpMaps keyHash =>
    map[agent.agent.id]? = some (keyhive.keyOpsAt agent.place)) _ _ ?_ fun map held source registered => ?_
  · have vacant : (addManyKeys ∅ keyhive.active.1 (keyhive.keyOpsAt keyhive.active.2)).getD agent.agent.id .empty
        = .empty := by
      rw [ExtTreeMap.getD_eq_getD_getElem?, kept inactive, ExtTreeMap.getElem?_empty]
      rfl
    rw [addManyKeys, getElem?_insert_iff, if_pos rfl, vacant, CaMap.empty_extend]
  · rw [addReached]
    split
    · rename_i through
      have other : agent.agent.id ≠ source.1 := fun same =>
        outside source registered same.symm (ExtTreeMap.mem_iff_contains.mpr through)
      refine List.foldlRecOn (motive := fun map : KeyOpMaps keyHash =>
        map[agent.agent.id]? = some (keyhive.keyOpsAt agent.place)) _ _ ((kept other).trans held)
        fun map held entry _ => ?_
      rw [addMember]
      split
      · exact held
      · rename_i vacant
        refine (kept fun same => vacant ?_).trans held
        rw [← same]
        exact ExtTreeMap.mem_iff_contains.mp (mem_iff_exists.mpr ⟨_, held⟩)
    · exact held

/-- **The two agree on all agents** if the principals under one identifier have the same operations, without circles.
Conversely, if they agree before the operations are sorted, then so do the agents under one identifier, unless it is that
of the active agent or of a group that contains itself. -/
theorem prekeyOpsAgree_of_coherent (order : MemberOrder T) (keyhive : Keyhive T keyHash) :
    (keyhive.Coherent order → keyhive.Sortable order → ∀ agent, keyhive.IsAgent order agent →
        keyhive.PrekeyOpsAgree order agent) ∧
      ((∀ agent, keyhive.IsAgent order agent → keyhive.MapsAgree order agent) →
        ∀ agent agent', keyhive.IsAgent order agent → keyhive.IsAgent order agent' →
          agent.agent.id = agent'.agent.id → agent.agent.id ≠ keyhive.active.1 →
          (∀ source ∈ keyhive.sources, source.1 = agent.agent.id →
            agent.agent.id ∉ keyhive.transitiveMembers order source) →
          keyhive.keyOpsAt agent.place = keyhive.keyOpsAt agent'.place) := by
  refine ⟨fun coherent sortable agent isAgent => prekeyOpsAgree coherent sortable isAgent, ?_⟩
  intro agree agent agent' isAgent isAgent' same inactive outside
  have own := own_reachableKeyOps inactive outside
  have own' : (keyhive.reachableKeyOps order agent')[agent'.agent.id]? = some (keyhive.keyOpsAt agent'.place) :=
    own_reachableKeyOps (same ▸ inactive) (same ▸ outside)
  have cached := (agree agent isAgent).cached _ (mem_iff_exists.mpr ⟨_, own⟩)
  have cached' := (agree agent' isAgent').cached _ (mem_iff_exists.mpr ⟨_, own'⟩)
  rw [own] at cached
  rw [own', ← same] at cached'
  exact Option.some.inj (cached.symm.trans cached')

end Agreement

namespace Sample

open Core.Sample
open KeyOp.Sample (adds)

/-- A group after some operations, with the prekey operations of the individual that it is. -/
def withIndividual (ran : Except AddError (Group Unit)) (indie : Option (CaMap KeyOp.Sample.hash)) :
    Principal Unit KeyOp.Sample.hash :=
  match ran with
  | .ok group => .group group indie
  | .error _ => .individual .empty

def inKeyOrder : MemberOrder Unit := ⟨fun members => members.toList, fun _ => .refl _⟩

def seventh : SignedDelegation Unit := delegation 17 1 7 .edit (some admin)

/-- 7, as a group, has the administrator 8. -/
def eighth : SignedDelegation Unit := delegation 18 7 8 .admin none

/-- 7 was an individual with the prekey 1 when it became a member of group 0. Then it became a group with the member 8, and
the prekey 2 was received. -/
def becameGroup : Keyhive Unit KeyOp.Sample.hash where
  memory := (((ExtTreeMap.empty.insert 0 (withIndividual (run .sorted admin [.delegation seventh]) none)).insert 1
    (.individual (CaMap.empty.insert (adds 1 1)))).insert 2
    (withIndividual (run .sorted eighth []) (some (CaMap.empty.insert (adds 2 2))))).insert 3 (.individual .empty)
  pointsTo dlg := if dlg.payload.delegate.id = principal 7 then 1 else 3
  active := (principal 9, 3)
  individuals := []
  groups := [(principal 0, 0), (principal 7, 2)]
  docs := []

def eighthMember : AgentRef := ⟨⟨.individual, principal 8⟩, 3⟩

/-- **An agent is told the prekeys of an individual that became a group**: alone the prekey that the group has received,
and with all agents the one that the individual had. -/
theorem became_group_told_apart : becameGroup.IsAgent inKeyOrder eighthMember ∧
    ¬ becameGroup.PrekeyOpsAgree inKeyOrder eighthMember := by
  constructor
  · have through : (becameGroup.transitiveMembers inKeyOrder (principal 7, 2))[principal 8]? =
        some (eighthMember, .admin) := by
      decide +kernel
    exact .member (by decide +kernel) through
  · intro agree
    have all : (becameGroup.reachablePrekeyOpsForAllAgents inKeyOrder 1 .sorted).map
        (fun all => all.ops[principal 7]?) = some (some [adds 1 1]) := by decide +kernel
    have one : (becameGroup.reachablePrekeyOpsForAgent inKeyOrder 1 .sorted eighthMember).map
        (fun one => one[principal 7]?) = some (some [adds 2 2]) := by decide +kernel
    obtain ⟨all, isAll, batched⟩ := Option.map_eq_some_iff.mp all
    obtain ⟨one, isOne, alone⟩ := Option.map_eq_some_iff.mp one
    obtain ⟨sorted, sorted', there, there', told⟩ :=
      (agree.agrees _ _ _ _ _ _ isAll isOne).2 (principal 7) (mem_iff_exists.mpr ⟨_, alone⟩)
    obtain rfl := Option.some.inj (batched.symm.trans there)
    obtain rfl := Option.some.inj (alone.symm.trans there')
    exact absurd (told (adds 1 1)) (by decide +kernel)

/-- 7 is an individual with the prekey 1, and a member of group 0. -/
def remainedIndividual : Keyhive Unit KeyOp.Sample.hash where
  memory := ((ExtTreeMap.empty.insert 0 (withIndividual (run .sorted admin [.delegation seventh]) none)).insert 1
    (.individual (CaMap.empty.insert (adds 1 1)))).insert 3 (.individual .empty)
  pointsTo dlg := if dlg.payload.delegate.id = principal 7 then 1 else 3
  active := (principal 9, 3)
  individuals := [(principal 7, 1)]
  groups := [(principal 0, 0)]
  docs := []

theorem coherent_remainedIndividual :
    remainedIndividual.Coherent inKeyOrder ∧ remainedIndividual.Sortable inKeyOrder := by
  let placeOf (id : Identifier) : Nat := if id = principal 7 then 1 else if id = principal 0 then 0 else 3
  have members : ∀ source ∈ remainedIndividual.sources,
      ∀ entry ∈ (remainedIndividual.transitiveMembers inKeyOrder source).toList, entry.2.1.place = placeOf entry.1 := by
    decide +kernel
  have unique {id : Identifier} {place : Nat} (stands : remainedIndividual.Stands inKeyOrder id place) :
      place = placeOf id := by
    cases stands with
    | active => decide +kernel
    | individual registered =>
      obtain rfl := List.mem_singleton.mp registered
      decide +kernel
    | source registered =>
      obtain rfl := List.mem_singleton.mp registered
      decide +kernel
    | member registered through =>
      exact members _ registered _ (ExtTreeMap.mem_toList_iff_getElem?_eq_some.mpr through)
  refine ⟨fun id place place' stands stands' => by rw [unique stands, unique stands'], fun id place stands keyOrder => ?_⟩
  refine KeyOp.acyclic_of_additions fun op member => ?_
  have adds : ∀ place ∈ [1, 0, 3], ∀ op ∈ (remainedIndividual.keyOpsAt place).values .sorted, op.oldKey = none := by
    decide +kernel
  have here : place ∈ [1, 0, 3] := by
    rw [unique stands]
    simp only [placeOf]
    split <;> [skip; split] <;> simp
  exact adds place here op (CaMap.mem_values.mpr (CaMap.mem_values.mp member))

/-- A registered individual is told the same either way. -/
theorem remained_individual_told : remainedIndividual.Coherent inKeyOrder ∧ remainedIndividual.Sortable inKeyOrder ∧
    remainedIndividual.PrekeyOpsAgree inKeyOrder ⟨⟨.individual, principal 7⟩, 1⟩ := by
  have isAgent : remainedIndividual.IsAgent inKeyOrder ⟨⟨.individual, (principal 7, 1).1⟩, (principal 7, 1).2⟩ :=
    .individual (List.mem_singleton_self _)
  obtain ⟨coherent, sortable⟩ := coherent_remainedIndividual
  exact ⟨coherent, sortable, (prekeyOpsAgree_of_coherent inKeyOrder remainedIndividual).1 coherent sortable _ isAgent⟩

end Sample

end Keyhive

end KeyhiveEval.Core
