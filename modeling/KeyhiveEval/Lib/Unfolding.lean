/-
**A stack that is popped until it is empty.**

Each value that is popped is given out, and its children are pushed. There is no record of what was given out before,
so the loop unfolds a graph into a forest: a value comes out once for every way that leads to it, and a circle is
walked for ever.

* `unfold` — the loop, or `none` where the fuel does not suffice; `Unfolds` — some fuel does.
* `Unfolds.perm` — what is given out is what was on the stack, and the children of what is given out.
* `Unfolds.after_parent` — a value comes out after one of its parents.
* `exists_unfolds` — the loop ends where no chain of children is endless, and more fuel changes nothing (`unfold_mono`).
-/

import Mathlib.Data.List.Perm.Basic
import Mathlib.Data.List.Perm.Lattice
import Mathlib.Data.List.Basic
import Mathlib.Order.WellFounded

namespace Unfolding

variable {α : Type}

/-- Pop until the stack is empty. The top of the stack comes first, so that of several children the last one pushed is
popped first. -/
def unfold (children : α → List α) : Nat → List α → List α → Option (List α)
  | _, [], out => some out
  | 0, _ :: _, _ => none
  | fuel + 1, top :: stack, out => unfold children fuel ((children top).reverse ++ stack) (out ++ [top])

/-- The loop ends and gives out a list. -/
def Unfolds (children : α → List α) (stack out : List α) : Prop := ∃ fuel, unfold children fuel stack [] = some out

variable {children : α → List α}

/-! ### What is given out -/

theorem unfold_append (fuel : Nat) (stack earlier out : List α) :
    unfold children fuel stack (earlier ++ out) = (unfold children fuel stack out).map (earlier ++ ·) := by
  induction fuel generalizing stack out with
  | zero => cases stack <;> rfl
  | succ fuel ih =>
    cases stack with
    | nil => rfl
    | cons top stack => rw [unfold, unfold, List.append_assoc, ih]

variable {out : List α}

theorem unfolds_nil : Unfolds children [] out ↔ out = [] := by
  constructor
  · rintro ⟨_ | fuel, ended⟩
    · exact (Option.some.inj ended).symm
    · exact (Option.some.inj ended).symm
  · rintro rfl
    exact ⟨0, rfl⟩

variable {top : α} {stack : List α}

theorem unfolds_cons :
    Unfolds children (top :: stack) out ↔
      ∃ rest, out = top :: rest ∧ Unfolds children ((children top).reverse ++ stack) rest := by
  constructor
  · rintro ⟨_ | fuel, ended⟩
    · cases ended
    · rw [unfold, show ([] : List α) ++ [top] = [top] ++ [] from rfl, unfold_append] at ended
      obtain ⟨rest, later, rfl⟩ := Option.map_eq_some_iff.mp ended
      exact ⟨rest, rfl, fuel, later⟩
  · rintro ⟨rest, rfl, fuel, ended⟩
    refine ⟨fuel + 1, ?_⟩
    rw [unfold, show ([] : List α) ++ [top] = [top] ++ [] from rfl, unfold_append, ended]
    rfl

/-- What holds of the stack when nothing is left on it, and before a value is popped if it holds after, holds of every
loop that ends. -/
theorem Unfolds.induct {motive : List α → List α → Prop} (nil : motive [] [])
    (step : ∀ top stack rest, Unfolds children ((children top).reverse ++ stack) rest →
      motive ((children top).reverse ++ stack) rest → motive (top :: stack) (top :: rest)) (unfolds :
    Unfolds children stack out) : motive stack out := by
  induction out generalizing stack with
  | nil =>
    cases stack with
    | nil => exact nil
    | cons top stack =>
      obtain ⟨rest, same, -⟩ := unfolds_cons.mp unfolds
      cases same
  | cons first out ih =>
    cases stack with
    | nil => cases unfolds_nil.mp unfolds
    | cons top stack =>
      obtain ⟨rest, same, later⟩ := unfolds_cons.mp unfolds
      obtain ⟨rfl, rfl⟩ := List.cons.inj same
      exact step first stack out later (ih later)

/-- **What is given out** is what was on the stack, and the children of what is given out. -/
theorem Unfolds.perm (unfolds : Unfolds children stack out) :
    out.Perm (stack ++ out.flatMap children) := by
  refine Unfolds.induct (motive := fun stack out => out.Perm (stack ++ out.flatMap children)) (List.Perm.refl _) ?_
    unfolds
  intro top stack rest _ ih
  rw [List.cons_append, List.flatMap_cons]
  refine List.Perm.cons top (ih.trans ?_)
  rw [List.append_assoc]
  exact ((List.reverse_perm _).append_right _).trans (List.perm_append_comm_assoc _ _ _)

/-- **A value comes out after one of its parents**, unless it was on the stack. -/
theorem Unfolds.after_parent (unfolds : Unfolds children stack out) :
    ∀ first x last, out = first ++ x :: last → x ∈ stack ∨ ∃ parent ∈ first, x ∈ children parent := by
  refine Unfolds.induct (motive := fun stack out => ∀ first x last, out = first ++ x :: last →
    x ∈ stack ∨ ∃ parent ∈ first, x ∈ children parent) (by simp) ?_ unfolds
  intro top stack rest _ ih first x last split
  cases first with
  | nil =>
    obtain ⟨rfl, -⟩ := List.cons.inj split
    exact .inl List.mem_cons_self
  | cons head first =>
    obtain ⟨rfl, tails⟩ := List.cons.inj split
    rcases ih first x last tails with waits | ⟨parent, earlier, child⟩
    · rcases List.mem_append.mp waits with child | waits
      · exact .inr ⟨_, List.mem_cons_self, List.mem_reverse.mp child⟩
      · exact .inl (List.mem_cons_of_mem _ waits)
    · exact .inr ⟨parent, List.mem_cons_of_mem _ earlier, child⟩

/-! ### Where the loop ends -/

theorem unfold_mono {earlier : List α} {fuel more : Nat} (enough : fuel ≤ more)
    (ended : unfold children fuel stack earlier = some out) : unfold children more stack earlier = some out := by
  induction fuel generalizing stack earlier more with
  | zero =>
    cases stack with
    | nil => cases more <;> exact ended
    | cons top stack => cases ended
  | succ fuel ih =>
    obtain ⟨more, rfl⟩ := Nat.exists_eq_add_of_lt enough
    cases stack with
    | nil => exact ended
    | cons top stack =>
      rw [unfold] at ended ⊢
      exact ih (Nat.le_add_right _ _) ended

/-- Everything below the value can be unfolded, in front of any stack that can. -/
theorem exists_unfolds_cons (ends : Acc (fun child parent => child ∈ children parent) top) :
    ∀ {stack}, (∃ out, Unfolds children stack out) → ∃ out, Unfolds children (top :: stack) out := by
  induction ends with
  | intro top _ ih =>
    intro stack rest
    have all : ∀ list : List α, (∀ child ∈ list, child ∈ children top) →
        ∃ out, Unfolds children (list ++ stack) out := by
      intro list
      induction list with
      | nil => exact fun _ => rest
      | cons child list ihList =>
        intro within
        exact ih child (within child List.mem_cons_self)
          (ihList fun other listed => within other (List.mem_cons_of_mem _ listed))
    obtain ⟨out, later⟩ := all (children top).reverse fun child listed => List.mem_reverse.mp listed
    exact ⟨top :: out, unfolds_cons.mpr ⟨out, rfl, later⟩⟩

/-- **The loop ends** where no chain of children is endless. -/
theorem exists_unfolds
    (ends : ∀ x ∈ stack, Acc (fun child parent => child ∈ children parent) x) :
    ∃ out, Unfolds children stack out := by
  induction stack with
  | nil => exact ⟨[], unfolds_nil.mpr rfl⟩
  | cons top stack ih =>
    exact exists_unfolds_cons (ends top List.mem_cons_self) (ih fun x listed => ends x (List.mem_cons_of_mem _ listed))

end Unfolding
