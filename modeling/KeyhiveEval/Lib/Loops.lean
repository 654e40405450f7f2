/-
**Loops that may fail.**

What is known about a loop of `Except` when it returns, and where it stopped when it does not.

* `foldlM_ok_induct` — an invariant of the rounds holds at the end.
* `foldl_or_iff` — what a loop that cannot fail adds round by round.
* `after_mapM` — the same for a loop that changes a state, where it returns and where it fails.
-/

import KeyhiveEval.Lib.Stateful

namespace Stateful

universe u

variable {ε σ α β : Type u}

/-- **What every round adds**, the whole loop adds. -/
theorem foldl_or_iff {f : σ → α → σ} {P : σ → Prop} {Q : α → Prop} (step : ∀ s a, P (f s a) ↔ P s ∨ Q a)
    (list : List α) (s : σ) : P (list.foldl f s) ↔ P s ∨ ∃ a ∈ list, Q a := by
  induction list generalizing s with
  | nil => simp
  | cons a list ih => rw [List.foldl_cons, ih, step, List.exists_mem_cons_iff, or_assoc]

/-- **What every round of a successful loop keeps**, with the part of the list that is done. -/
theorem foldlM_ok_induct {list : List α} {f : σ → α → Except ε σ} {s s' : σ} {motive : List α → σ → Prop}
    (runs : list.foldlM f s = .ok s') (start : motive [] s)
    (step : ∀ done a s s', a ∈ list → motive done s → f s a = .ok s' → motive (done ++ [a]) s') :
    motive list s' := by
  suffices ∀ done rest s, done ++ rest = list → motive done s → rest.foldlM f s = .ok s' → motive list s' from
    this [] list s rfl start runs
  intro done rest
  induction rest generalizing done with
  | nil =>
    intro s all before runs
    rw [List.foldlM_nil, except_pure_ok_iff] at runs
    rwa [← all, List.append_nil, ← runs]
  | cons a rest ih =>
    intro s all before runs
    rw [List.foldlM_cons, except_bind_ok_iff] at runs
    obtain ⟨next, here, runs⟩ := runs
    refine ih (done ++ [a]) next (by rw [List.append_assoc, List.singleton_append, all]) ?_ runs
    exact step done a s next (all ▸ List.mem_append_right _ List.mem_cons_self) before here

/-! ### Loops with a state -/

section State

variable {ε' : Type u} {s : σ}

/-- **The rule for a loop with a state:** an invariant of the rounds, with the part of the list that is done and its
results, holds at the end; where a round fails, the loop does. -/
theorem after_mapM (list : List α) (f : α → EStateM ε σ β) (inv : List α → List β → σ → Prop) (fail : ε → σ → Prop)
    (start : inv [] [] s)
    (step : ∀ done a rest results s, list = done ++ a :: rest → inv done results s →
      After (f a s) (fun b s' => inv (done ++ [a]) (results ++ [b]) s') fail) :
    After (list.mapM f s) (fun results s' => inv list results s') fail := by
  suffices ∀ done rest results s, done ++ rest = list → inv done results s →
      After (rest.mapM f s) (fun more s' => inv list (results ++ more) s') fail by
    simpa using this [] list [] s rfl start
  intro done rest
  induction rest generalizing done with
  | nil =>
    intro results s whole holds
    rw [List.mapM_nil, after_pure, List.append_nil, ← whole, List.append_nil]
    exact holds
  | cons a rest ih =>
    intro results s whole holds
    rw [List.mapM_cons, after_bind]
    refine (step done a rest results s whole.symm holds).mono (fun b s' next => ?_) fun e s' failed => failed
    rw [after_bind]
    refine (ih (done ++ [a]) (results ++ [b]) s' (by simp [← whole]) next).mono (fun more s'' final => ?_)
      fun e s' failed => failed
    rw [after_pure]
    simpa using final

def mapError (f : ε → ε') (m : EStateM ε σ α) : EStateM ε' σ α := fun s =>
  match m s with
  | .ok a s' => .ok a s'
  | .error e s' => .error (f e) s'

theorem after_mapError {f : ε → ε'} {m : EStateM ε σ α} {post : α → σ → Prop} {fail : ε' → σ → Prop} :
    After (mapError f m s) post fail ↔ After (m s) post fun e s' => fail (f e) s' := by
  unfold mapError
  cases m s <;> rfl

end State

end Stateful
