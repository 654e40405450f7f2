/-
**Ordered sets and maps, by their members.**

What the library of ordered trees says about insertion, erasure and folds, read for keys whose order is
lawful: a key compares equal to itself only. A fold that inserts, erases or keeps is
described by the members of its result.
-/

import Mathlib.Data.List.Sort
import Mathlib.Data.List.Perm.Subperm
import Std.Data.ExtTreeMap
import Std.Data.ExtTreeSet

namespace OrderedSets

open Std

set_option linter.unusedSectionVars false

variable {T : Type} [Ord T] [TransOrd T] [LawfulEqOrd T] [DecidableEq T]

/-- The order of the keys. -/
def Less (a b : T) : Prop := compare a b = .lt

instance : Std.Irrefl (Less (T := T)) := ⟨fun a => by simp [Less]⟩

instance : Std.Asymm (Less (T := T)) := ⟨fun _ _ => OrientedCmp.not_lt_of_lt⟩

section Sets

variable {set : ExtTreeSet T} {x : T}

@[simp]
theorem mem_insert_iff {a : T} : x ∈ set.insert a ↔ x = a ∨ x ∈ set := by
  rw [ExtTreeSet.mem_insert, LawfulEqCmp.compare_eq_iff_eq, eq_comm]

@[simp]
theorem mem_erase_iff {a : T} : x ∈ set.erase a ↔ x ≠ a ∧ x ∈ set := by
  rw [ExtTreeSet.mem_erase, Ne, LawfulEqCmp.compare_eq_iff_eq, Ne, eq_comm]

@[simp]
theorem mem_filter_iff {f : T → Bool} :
    x ∈ set.filter f ↔ x ∈ set ∧ f x = true := by
  rw [ExtTreeSet.mem_filter]
  constructor
  · rintro ⟨member, holds⟩
    exact ⟨member, by simpa using holds⟩
  · rintro ⟨member, holds⟩
    exact ⟨member, by simpa using holds⟩

/-- Emptiness, by the members. -/
theorem isEmpty_iff_forall_not_mem :
    set.isEmpty = true ↔ ∀ x, x ∉ set := by
  rw [ExtTreeSet.isEmpty_iff]
  constructor
  · rintro rfl x
    simp
  · intro none
    exact ExtTreeSet.ext_mem fun x => by simp [none x]

theorem isEmpty_eq_false_iff : set.isEmpty = false ↔ ∃ x, x ∈ set := by
  rw [← Bool.not_eq_true, isEmpty_iff_forall_not_mem]
  simp

/-- A set of at most one member. -/
theorem size_le_one_iff :
    set.size ≤ 1 ↔ ∀ x y, x ∈ set → y ∈ set → x = y := by
  rw [← ExtTreeSet.length_toList]
  have distinct : set.toList.Nodup :=
    ExtTreeSet.distinct_toList.imp fun {a b} apart same => apart (by simp [same])
  constructor
  · intro short x y here there
    rw [← ExtTreeSet.mem_toList] at here there
    match list : set.toList with
    | [] => simp [list] at here
    | [z] =>
      rw [list, List.mem_singleton] at here there
      rw [here, there]
    | _ :: _ :: _ => simp [list] at short
  · intro same
    match list : set.toList with
    | [] => simp
    | [_] => simp
    | a :: b :: rest =>
      have here : a ∈ set := ExtTreeSet.mem_toList.mp (by simp [list])
      have there : b ∈ set := ExtTreeSet.mem_toList.mp (by simp [list])
      rw [list] at distinct
      refine absurd ?_ (List.nodup_cons.mp distinct).1
      rw [same a b here there]
      exact List.mem_cons_self

/-- A fold that inserts adds the members of the list. -/
theorem mem_foldl_insert (list : List T) (set : ExtTreeSet T) (x : T) :
    x ∈ list.foldl (fun set a => set.insert a) set ↔ x ∈ set ∨ x ∈ list := by
  induction list generalizing set with
  | nil => simp
  | cons a list ih =>
    rw [List.foldl_cons, ih, mem_insert_iff, List.mem_cons]
    tauto

/-- A fold that erases takes away the members of the list. -/
theorem mem_foldl_erase (list : List T) (set : ExtTreeSet T) (x : T) :
    x ∈ list.foldl (fun set a => set.erase a) set ↔ x ∈ set ∧ x ∉ list := by
  induction list generalizing set with
  | nil => simp
  | cons a list ih =>
    rw [List.foldl_cons, ih, mem_erase_iff, List.mem_cons]
    tauto

theorem mem_ofList_iff {list : List T} : x ∈ ExtTreeSet.ofList list ↔ x ∈ list := by
  rw [ExtTreeSet.mem_ofList]
  simp

end Sets

section Maps

variable {V : Type} {map : ExtTreeMap T V} {v : V}

theorem mem_map_insert_iff {a x : T} :
    x ∈ map.insert a v ↔ x = a ∨ x ∈ map := by
  rw [ExtTreeMap.mem_insert, LawfulEqCmp.compare_eq_iff_eq, eq_comm]

/-- Looking up after an insertion, with equality of keys in place of their order. -/
theorem getElem?_insert_iff {a x : T} :
    (map.insert a v)[x]? = if x = a then some v else map[x]? := by
  rw [ExtTreeMap.getElem?_insert]
  exact if_congr (LawfulEqCmp.compare_eq_iff_eq.trans eq_comm) rfl rfl

theorem getD_insert_iff {a x : T} {d : V} :
    (map.insert a v).getD x d = if x = a then v else map.getD x d := by
  rw [ExtTreeMap.getD_insert]
  exact if_congr (LawfulEqCmp.compare_eq_iff_eq.trans eq_comm) rfl rfl

theorem mem_iff_exists {x : T} : x ∈ map ↔ ∃ v, map[x]? = some v := by
  rw [ExtTreeMap.mem_iff_isSome_getElem?, Option.isSome_iff_exists]

theorem map_isEmpty_iff : map.isEmpty = true ↔ ∀ x, x ∉ map := by
  rw [ExtTreeMap.isEmpty_iff]
  constructor
  · rintro rfl x
    simp
  · intro none
    refine ExtTreeMap.ext_getElem? fun x => ?_
    rw [ExtTreeMap.getElem?_empty, ExtTreeMap.getElem?_eq_none (none x)]

theorem nodup_keys (map : ExtTreeMap T V) : map.keys.Nodup :=
  ExtTreeMap.distinct_keys.imp fun {a b} apart same => apart (by simp [same])

/-- Distinct keys of a map are no more than its size. -/
theorem length_le_size {list : List T} (distinct : list.Nodup)
    (within : ∀ x ∈ list, x ∈ map) : list.length ≤ map.size := by
  rw [← ExtTreeMap.length_keys]
  exact (List.subperm_of_subset distinct fun x member =>
    ExtTreeMap.mem_keys.mpr (within x member)).length_le

/-- No key is listed twice. -/
theorem distinct_toList (map : ExtTreeMap T V) : (map.toList.map Prod.fst).Nodup := by
  rw [ExtTreeMap.map_fst_toList_eq_keys]
  exact nodup_keys map

/-- **A fold over the entries of a map, at one key**: only the entry of that key counts. -/
theorem getElem?_foldl_at {step : ExtTreeMap T V → T → V → ExtTreeMap T V} {x : T} (c : Option V → V → Option V)
    (here : ∀ map value, (step map x value)[x]? = c map[x]? value)
    (others : ∀ map key value, x ≠ key → (step map key value)[x]? = map[x]?) (map other : ExtTreeMap T V) :
    (other.foldl step map)[x]? = other[x]?.elim map[x]? (c map[x]?) := by
  have general (list : List (T × V)) (distinct : (list.map Prod.fst).Nodup) (map : ExtTreeMap T V) (found : Option V)
      (listed : ∀ v, (x, v) ∈ list ↔ found = some v) :
      (list.foldl (fun all entry => step all entry.1 entry.2) map)[x]? = found.elim map[x]? (c map[x]?) := by
    induction list generalizing map found with
    | nil =>
      cases found with
      | none => rfl
      | some v => exact absurd ((listed v).mpr rfl) List.not_mem_nil
    | cons entry list ih =>
      obtain ⟨key, value⟩ := entry
      obtain ⟨fresh, distinct'⟩ := List.nodup_cons.mp distinct
      rw [List.foldl_cons]
      by_cases same : x = key
      · subst same
        have absent (v : V) : (x, v) ∉ list := fun member => fresh (List.mem_map.mpr ⟨(x, v), member, rfl⟩)
        rw [ih distinct' _ none fun v => by simp [absent v], (listed value).mp List.mem_cons_self]
        exact here map value
      · rw [ih distinct' _ found fun v => ?_, others map key value same]
        rw [← listed, List.mem_cons, Prod.mk.injEq]
        simp [same]
  rw [ExtTreeMap.foldl_eq_foldl_toList]
  exact general _ (distinct_toList other) map _ fun v => ExtTreeMap.mem_toList_iff_getElem?_eq_some

/-- What a map becomes when the entries of another one are added that are new. -/
theorem getElem?_foldl_insertIfNew (map other : ExtTreeMap T V) (x : T) :
    (other.foldl (fun all key value => all.insertIfNew key value) map)[x]? = map[x]?.or other[x]? := by
  rw [getElem?_foldl_at (fun old value => old.or (some value)) (fun map value => ?_) fun map key value apart => ?_]
  · cases other[x]? <;> simp
  · rw [ExtTreeMap.getElem?_insertIfNew]
    by_cases present : x ∈ map
    · obtain ⟨old, found⟩ := mem_iff_exists.mp present
      rw [if_neg fun both => both.2 present, found]
      rfl
    · rw [if_pos ⟨ReflCmp.compare_self, present⟩, ExtTreeMap.getElem?_eq_none present]
      rfl
  · rw [ExtTreeMap.getElem?_insertIfNew, if_neg fun both => apart (LawfulEqCmp.compare_eq_iff_eq.mp both.1).symm]

/-- What a map becomes when all entries of another one are put in. -/
theorem getElem?_foldl_insert (map other : ExtTreeMap T V) (x : T) :
    (other.foldl (fun all key value => all.insert key value) map)[x]? = other[x]?.or map[x]? := by
  rw [getElem?_foldl_at (fun _ value => some value) (fun map value => ?_) fun map key value apart => ?_]
  · cases other[x]? <;> rfl
  · rw [getElem?_insert_iff, if_pos rfl]
  · rw [getElem?_insert_iff, if_neg apart]

end Maps

end OrderedSets
