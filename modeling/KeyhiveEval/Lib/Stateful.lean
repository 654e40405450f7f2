/-
**Computations with a state and errors.**

A computation of `EStateM` keeps the state that it has reached when it fails, so a statement about
it has two postconditions: `After result post fail` says that the result is a value in `post` or an
error in `fail`.

* `after_bind` and its companions compute the condition under which `After` holds, one
  constructor of the monad at a time.
* `bind_ok_iff` and `except_bind_ok_iff` take a successful computation apart; `rethrow_ok_iff` is for a computation
  whose errors are thrown again.
* `final` is the state that a computation ends in, with or without an error; `Reads` says that a computation does not
  change it.
-/

import Mathlib

namespace Stateful

universe u

variable {ε σ α β : Type u}

/-! ### Errors without a state -/

variable {m : Except ε α} {f : α → Except ε β}

theorem except_bind_ok_iff {b : β} :
    m >>= f = .ok b ↔ ∃ a, m = .ok a ∧ f a = .ok b := by
  cases m with
  | error e => simp [bind, Except.bind]
  | ok a => simp [bind, Except.bind]

theorem except_pure_ok_iff {a b : α} : (pure a : Except ε α) = .ok b ↔ a = b := by
  simp [pure, Except.pure]

/-! ### Two postconditions -/

/-- The result is a value in `post` or an error in `fail`. -/
def After (result : EStateM.Result ε σ α) (post : α → σ → Prop) (fail : ε → σ → Prop) : Prop :=
  match result with
  | .ok a s => post a s
  | .error e s => fail e s

section Rules

variable {post post' : α → σ → Prop} {fail fail' : ε → σ → Prop} {s : σ} {result : EStateM.Result ε σ α}

theorem After.mono (holds : After result post fail)
    (stronger : ∀ a s, post a s → post' a s) (strongerFail : ∀ e s, fail e s → fail' e s) :
    After result post' fail' := by
  cases result with
  | ok a s => exact stronger a s holds
  | error e s => exact strongerFail e s holds

theorem after_const {P : Prop} (holds : P) (result : EStateM.Result ε σ α) :
    After result (fun _ _ => P) fun _ _ => True := by
  cases result with
  | ok => exact holds
  | error => trivial

theorem after_congr (same : ∀ a s, post a s ↔ post' a s) :
    After result post fail ↔ After result post' fail := by
  cases result with
  | ok a s => exact same a s
  | error e s => exact Iff.rfl

variable {a : α}

theorem after_ok : After (.ok a s : EStateM.Result ε σ α) post fail ↔ post a s := Iff.rfl

theorem after_bind {m : EStateM ε σ β} {f : β → EStateM ε σ α} :
    After ((m >>= f) s) post fail ↔ After (m s) (fun b s' => After (f b s') post fail) fail := by
  show After (EStateM.bind m f s) post fail ↔ _
  unfold EStateM.bind
  cases m s <;> rfl

theorem after_pure : After ((pure a : EStateM ε σ α) s) post fail ↔ post a s := Iff.rfl

theorem after_throw {e : ε} :
    After ((throw e : EStateM ε σ α) s) post fail ↔ fail e s := Iff.rfl

theorem after_get {post : σ → σ → Prop} :
    After ((get : EStateM ε σ σ) s) post fail ↔ post s s := Iff.rfl

theorem after_set {post : PUnit → σ → Prop} {s' : σ} :
    After ((set s' : EStateM ε σ PUnit) s) post fail ↔ post ⟨⟩ s' := Iff.rfl

theorem after_modify {post : PUnit → σ → Prop} {f : σ → σ} :
    After ((modify f : EStateM ε σ PUnit) s) post fail ↔ post ⟨⟩ (f s) := Iff.rfl

theorem after_ite {c : Prop} [Decidable c] {m m' : EStateM ε σ α} :
    After ((if c then m else m') s) post fail
      ↔ (c → After (m s) post fail) ∧ (¬ c → After (m' s) post fail) := by
  split <;> simp [*]

end Rules

/-! ### Successful computations -/

variable {m : EStateM ε σ α} {f : α → EStateM ε σ β} {s s'' : σ} {b : β}

theorem bind_ok_iff :
    (m >>= f) s = .ok b s'' ↔ ∃ a s', m s = .ok a s' ∧ f a s' = .ok b s'' := by
  show EStateM.bind m f s = _ ↔ _
  unfold EStateM.bind
  cases m s <;> simp

variable {e : ε}

/-- A computation throws in its first part, or in the rest. -/
theorem bind_error_iff :
    (m >>= f) s = .error e s'' ↔ m s = .error e s'' ∨ ∃ a s', m s = .ok a s' ∧ f a s' = .error e s'' := by
  show EStateM.bind m f s = _ ↔ _
  unfold EStateM.bind
  cases m s <;> simp

theorem seq_ok_iff {m : EStateM ε σ PUnit} {f : PUnit → EStateM ε σ β} :
    (m >>= f) s = .ok b s'' ↔ ∃ s', m s = .ok ⟨⟩ s' ∧ f ⟨⟩ s' = .ok b s'' := by
  rw [bind_ok_iff]
  exact ⟨fun ⟨_, s', holds⟩ => ⟨s', holds⟩, fun ⟨s', holds⟩ => ⟨⟨⟩, s', holds⟩⟩

variable {s' : σ}

theorem map_ok_iff {f : α → β} :
    (f <$> m) s = .ok b s' ↔ ∃ a, m s = .ok a s' ∧ f a = b := by
  show EStateM.map f m s = _ ↔ _
  unfold EStateM.map
  cases m s with
  | error e s'' => simp
  | ok a s'' =>
    simp only [EStateM.Result.ok.injEq]
    exact ⟨fun ⟨value, last⟩ => ⟨a, ⟨rfl, last⟩, value⟩, fun ⟨_, ⟨same, last⟩, value⟩ => ⟨same ▸ value, last⟩⟩

theorem map_error_iff {f : α → β} :
    (f <$> m) s = .error e s' ↔ m s = .error e s' := by
  show EStateM.map f m s = _ ↔ _
  unfold EStateM.map
  cases m s <;> simp

variable {a : α}

theorem pure_ok_iff {b : α} :
    (pure a : EStateM ε σ α) s = .ok b s' ↔ a = b ∧ s = s' := by
  show EStateM.Result.ok a s = _ ↔ _
  simp

theorem get_ok_iff {a : σ} :
    (get : EStateM ε σ σ) s = .ok a s' ↔ s = a ∧ s = s' := by
  show EStateM.Result.ok s s = _ ↔ _
  simp

theorem set_ok_iff {new : σ} {a : PUnit} :
    (set new : EStateM ε σ PUnit) s = .ok a s' ↔ new = s' := by
  show EStateM.Result.ok PUnit.unit new = _ ↔ _
  simp

theorem ofExcept_ok_iff {m : Except ε α} :
    (ofExcept m : EStateM ε σ α) s = .ok a s' ↔ m = .ok a ∧ s = s' := by
  cases m with
  | error e =>
    show EStateM.Result.error e s = _ ↔ _
    simp
  | ok b =>
    show EStateM.Result.ok b s = _ ↔ _
    simp

theorem ofExcept_error_iff {m : Except ε α} :
    (ofExcept m : EStateM ε σ α) s = .error e s' ↔ m = .error e ∧ s = s' := by
  cases m with
  | error e' =>
    show EStateM.Result.error e' s = _ ↔ _
    simp
  | ok b =>
    show EStateM.Result.ok b s = _ ↔ _
    simp

/-- The value and the state of a successful computation. -/
def value? : EStateM.Result ε σ α → Option (α × σ)
  | .ok a s => some (a, s)
  | .error _ _ => none

theorem eq_ok_of_isSome {result : EStateM.Result ε σ α} (isSome : (value? result).isSome) :
    result = .ok ((value? result).get isSome).1 ((value? result).get isSome).2 := by
  cases result with
  | ok a s => rfl
  | error e s => simp [value?] at isSome

theorem forM_modify {γ : Type u} (list : List γ) (change : σ → γ → σ) (s : σ) :
    (list.forM fun entry => modify fun state => change state entry : EStateM ε σ PUnit) s
      = .ok ⟨⟩ (list.foldl change s) := by
  induction list generalizing s with
  | nil => rfl
  | cons entry rest ih => exact ih (change s entry)

/-! ### Errors that are thrown again -/

theorem rethrow_ok_iff {f : ε → ε} :
    (tryCatch m fun e => throw (f e)) s = .ok a s' ↔ m s = .ok a s' := by
  show EStateM.tryCatch m _ s = _ ↔ _
  unfold EStateM.tryCatch
  cases m s <;> simp [throw, throwThe, MonadExceptOf.throw, EStateM.throw]

theorem rethrow_error_iff {f : ε → ε} :
    (tryCatch m fun e => throw (f e)) s = .error e s' ↔ ∃ e', f e' = e ∧ m s = .error e' s' := by
  show EStateM.tryCatch m _ s = _ ↔ _
  unfold EStateM.tryCatch
  cases m s with
  | ok a s'' => simp
  | error e' s'' =>
    simp only [throw, throwThe, MonadExceptOf.throw, EStateM.throw, EStateM.Result.error.injEq]
    exact ⟨fun ⟨same, same'⟩ => ⟨e', same, rfl, same'⟩, fun ⟨_, same, rfl, same'⟩ => ⟨same, same'⟩⟩

/-! ### The last state -/

/-- The state that a computation ends in. -/
def final : EStateM.Result ε σ α → σ
  | .ok _ s => s
  | .error _ s => s

theorem After.final {P : σ → Prop} {result : EStateM.Result ε σ α} (holds : After result (fun _ => P) fun _ => P) :
    P (Stateful.final result) := by
  cases result with
  | ok a s => exact holds
  | error e s => exact holds

/-- A computation that changes nothing. -/
def Reads (m : EStateM ε σ α) : Prop := ∀ s, final (m s) = s

theorem get_bind_apply (f : σ → EStateM ε σ β) (s : σ) : (get >>= f) s = f s s := rfl

theorem final_bind (reads : ∀ a, Reads (f a)) (s : σ) :
    final ((m >>= f) s) = final (m s) := by
  show final (EStateM.bind m f s) = _
  unfold EStateM.bind
  cases m s with
  | ok a s' => exact reads a s'
  | error e s' => rfl

theorem Reads.bind (reads : Reads m) (rest : ∀ a, Reads (f a)) :
    Reads (m >>= f) :=
  fun s => (final_bind rest s).trans (reads s)

theorem reads_pure : Reads (pure a : EStateM ε σ α) := fun _ => rfl

theorem reads_throw : Reads (throw e : EStateM ε σ α) := fun _ => rfl

theorem reads_get : Reads (get : EStateM ε σ σ) := fun _ => rfl

theorem reads_ofExcept {m : Except ε α} : Reads (ofExcept m : EStateM ε σ α) := by
  intro s
  cases m <;> rfl

/-- What is returned has the property. -/
def Returns (holds : α → Prop) (m : EStateM ε σ α) : Prop := ∀ s a s', m s = .ok a s' → holds a

theorem Returns.bind {first : α → Prop} {holds : β → Prop} (returns : Returns first m)
    (rest : ∀ a, first a → Returns holds (f a)) : Returns holds (m >>= f) := by
  intro s b s' ok
  obtain ⟨a, mid, ok, later⟩ := bind_ok_iff.mp ok
  exact rest a (returns s a mid ok) mid b s' later

theorem returns_bind {holds : β → Prop} (rest : ∀ a, Returns holds (f a)) : Returns holds (m >>= f) :=
  Returns.bind (fun _ _ _ _ => trivial : Returns (fun _ => True) m) fun a _ => rest a

theorem returns_pure {holds : α → Prop} (here : holds a) : Returns holds (pure a : EStateM ε σ α) :=
  fun _ _ _ ok => (pure_ok_iff.mp ok).1 ▸ here

theorem returns_throw {holds : α → Prop} : Returns holds (throw e : EStateM ε σ α) := nofun

end Stateful
