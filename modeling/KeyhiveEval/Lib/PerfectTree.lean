/-
**Perfect binary trees in an array.**

The nodes of a perfect binary tree stand in the array in the order of a walk from left to right:
the leaves at the even positions, and between two subtrees their parent. Node `p` of level `k`
stands at `pos k p`, which in binary is `p`, a zero and `k` ones.

* `exists_pos`, `pos_injective` — every position is that of exactly one node.
* `parent_pos`, `left_pos`, `right_pos` — the bit patterns of the neighbours.
* `meet` — the level where the paths of two leaves meet.
* `cover` — the highest marked nodes of a subtree; `mem_cover` says which these are. None of them is below another
  (`pairwise_cover`), every marked leaf is at or below one (`exists_mem_cover`), and no marked node stands above one
  (`eq_of_mem_cover`).
-/

import Mathlib

namespace PerfectTree

/-! ### Positions -/

/-- The position of node `p` of level `k`. -/
def pos (k p : Nat) : Nat := 2 ^ (k + 1) * p + (2 ^ k - 1)

theorem testBit_pos (k p i : Nat) :
    (pos k p).testBit i = if i < k then true else if i = k then false else p.testBit (i - (k + 1)) := by
  have small : 2 ^ k - 1 < 2 ^ (k + 1) := by
    have := Nat.two_pow_pos k
    rw [pow_succ]
    omega
  unfold pos
  rw [Nat.testBit_two_pow_mul_add p small, Nat.testBit_two_pow_sub_one]
  rcases lt_trichotomy i k with below | here | above
  · simp [below, Nat.lt_succ_of_lt below]
  · simp [here]
  · simp [Nat.not_lt.mpr (Nat.succ_le_of_lt above), Nat.not_lt.mpr above.le, above.ne']

/-- Above the separating zero stand the bits of the number within the level. -/
theorem testBit_pos_add (k p d : Nat) : (pos k p).testBit (k + 1 + d) = p.testBit d := by
  rw [testBit_pos, if_neg (by omega), if_neg (by omega), Nat.add_sub_cancel_left]

theorem pos_zero (p : Nat) : pos 0 p = 2 * p := by simp [pos]

theorem pos_succ_odd (k p : Nat) : pos (k + 1) p % 2 = 1 := by
  have := Nat.two_pow_pos k
  unfold pos
  rw [pow_succ, pow_succ]
  generalize 2 ^ k = q at *
  have : q * 2 * 2 * p = 2 * (2 * q * p) := by ring
  omega

variable {k p : Nat}

theorem pos_lt_iff {h : Nat} (level : k ≤ h) : pos k p < 2 ^ (h + 1) ↔ p < 2 ^ (h - k) := by
  obtain ⟨d, rfl⟩ := Nat.exists_eq_add_of_le level
  have := Nat.two_pow_pos k
  have : 2 ^ (k + d + 1) = 2 ^ (k + 1) * 2 ^ d := by rw [← pow_add]; congr 1; omega
  have small : 2 ^ k - 1 < 2 ^ (k + 1) := by
    rw [pow_succ]
    omega
  unfold pos
  rw [this, Nat.add_sub_cancel_left]
  constructor
  · intro inside
    by_contra outside
    have := Nat.mul_le_mul_left (2 ^ (k + 1)) (Nat.le_of_not_lt outside)
    omega
  · intro inside
    have := Nat.mul_le_mul_left (2 ^ (k + 1)) (Nat.succ_le_of_lt inside)
    rw [Nat.mul_succ] at this
    omega

theorem level_le_of_pos_lt {h : Nat} (small : pos k p < 2 ^ (h + 1)) : k ≤ h + 1 := by
  by_contra high
  have : 2 ^ (h + 2) ≤ 2 ^ k := Nat.pow_le_pow_right (by omega) (by omega)
  have := Nat.two_pow_pos (h + 1)
  unfold pos at small
  rw [pow_succ 2 (h + 1)] at *
  omega

theorem exists_pos (x : Nat) : ∃ k p, x = pos k p := by
  induction x using Nat.strong_induction_on with
  | _ x ih =>
    rcases Nat.even_or_odd' x with ⟨y, rfl | rfl⟩
    · exact ⟨0, y, (pos_zero y).symm⟩
    · obtain ⟨k, p, rfl⟩ := ih y (by omega)
      refine ⟨k + 1, p, ?_⟩
      have := Nat.two_pow_pos k
      unfold pos
      rw [pow_succ 2 (k + 1), pow_succ 2 k]
      have : 2 ^ k * 2 * 2 * p = 2 * (2 ^ k * 2 * p) := by ring
      omega

theorem pos_injective {k' p' : Nat} (same : pos k p = pos k' p') : k = k' ∧ p = p' := by
  have bits : ∀ i, (pos k p).testBit i = (pos k' p').testBit i := fun i => by rw [same]
  have level : k = k' := by
    rcases lt_trichotomy k k' with below | here | above
    · have := bits k
      simp [testBit_pos, below] at this
    · exact here
    · have := bits k'
      simp [testBit_pos, above] at this
  subst level
  refine ⟨rfl, ?_⟩
  unfold pos at same
  exact Nat.eq_of_mul_eq_mul_left (Nat.two_pow_pos (k + 1)) (by omega)

/-! ### Neighbours -/

/-- Two numbers agree if they agree below a bit, at it, at the next one and above. -/
theorem eq_of_testBit_around {x y : Nat} (k : Nat) (below : ∀ i < k, x.testBit i = y.testBit i)
    (here : x.testBit k = y.testBit k) (next : x.testBit (k + 1) = y.testBit (k + 1))
    (above : ∀ d, x.testBit (k + 1 + 1 + d) = y.testBit (k + 1 + 1 + d)) : x = y := by
  refine Nat.eq_of_testBit_eq fun i => ?_
  rcases lt_trichotomy i k with small | rfl | large
  · exact below i small
  · exact here
  · rcases Nat.eq_or_lt_of_le (Nat.succ_le_of_lt large) with rfl | larger
    · exact next
    · obtain ⟨d, rfl⟩ := Nat.exists_eq_add_of_le (Nat.succ_le_of_lt larger)
      exact above d

theorem parent_pos (k p : Nat) :
    (pos k p ||| 2 ^ k) ^^^ (pos k p >>> (k + 1) &&& 1) <<< (k + 1) = pos (k + 1) (p / 2) := by
  have last : pos k p >>> (k + 1) &&& 1 = p % 2 := by
    rw [Nat.and_one_is_mod]
    congr 1
    refine Nat.eq_of_testBit_eq fun i => ?_
    rw [Nat.testBit_shiftRight, testBit_pos_add]
  rw [last]
  refine eq_of_testBit_around k (fun i small => ?_) ?_ ?_ fun d => ?_
  · simp [Nat.testBit_shiftLeft, testBit_pos, small, Nat.lt_succ_of_lt small]
    omega
  · simp [Nat.testBit_shiftLeft, testBit_pos]
  · simp [Nat.testBit_shiftLeft, testBit_pos, Nat.testBit_zero]
  · have high : (p % 2).testBit (d + 1) = false :=
      Nat.testBit_lt_two_pow (lt_of_lt_of_le (Nat.mod_lt p (by omega)) (by
        rw [pow_succ]
        have := Nat.two_pow_pos d
        omega))
    rw [Nat.testBit_xor, Nat.testBit_or, Nat.testBit_two_pow_of_ne (by omega),
      Nat.testBit_shiftLeft, testBit_pos_add, show k + 1 + 1 + d = k + 1 + (d + 1) by omega, testBit_pos_add,
      show k + 1 + (d + 1) - (k + 1) = d + 1 by omega, high, Nat.testBit_succ]
    simp

theorem left_pos (k p : Nat) : pos (k + 1) p ^^^ 2 ^ k = pos k (2 * p) := by
  refine eq_of_testBit_around k (fun i small => ?_) ?_ ?_ fun d => ?_
  · simp [testBit_pos, small, Nat.lt_succ_of_lt small, small.ne']
  · simp [testBit_pos]
  · simp [testBit_pos]
  · rw [Nat.testBit_xor, testBit_pos_add, Nat.testBit_two_pow_of_ne (by omega),
      show k + 1 + 1 + d = k + 1 + (d + 1) by omega, testBit_pos_add, Nat.testBit_succ]
    simp

theorem right_pos (k p : Nat) : pos (k + 1) p ^^^ 3 * 2 ^ k = pos k (2 * p + 1) := by
  have three : ∀ d, (3 : Nat).testBit (d + 2) = false := fun d => by
    simp [Nat.testBit_succ]
  rw [Nat.mul_comm]
  refine eq_of_testBit_around k (fun i small => ?_) ?_ ?_ fun d => ?_
  · simp [Nat.testBit_two_pow_mul, testBit_pos, small, Nat.lt_succ_of_lt small]
  · simp [Nat.testBit_two_pow_mul, testBit_pos]
  · simp [Nat.testBit_two_pow_mul, testBit_pos]
    decide
  · rw [Nat.testBit_xor, testBit_pos_add, Nat.testBit_two_pow_mul,
      show k + 1 + 1 + d - k = d + 2 by omega, three,
      show k + 1 + 1 + d = k + 1 + (d + 1) by omega, testBit_pos_add, Nat.testBit_succ,
      show (2 * p + 1) / 2 = p by omega]
    simp

/-! ### Where two paths meet -/

/-- The level where the paths of two leaves meet. -/
def meet (a b : Nat) : Nat := (a ^^^ b).size

variable {j : Nat}

theorem meet_le_iff {a b : Nat} : meet a b ≤ j ↔ a / 2 ^ j = b / 2 ^ j := by
  unfold meet
  rw [Nat.size_le, ← Nat.xor_eq_zero_iff, ← Nat.xor_div_two_pow, Nat.div_eq_zero_iff]
  simp

theorem meet_pos {a b : Nat} (apart : a ≠ b) : 0 < meet a b := by
  by_contra zero
  have := meet_le_iff.mp (Nat.le_of_not_lt zero)
  exact apart (by simpa using this)

/-! ### Subtrees -/

/-- Whether node `q` of level `j` is in the subtree of node `p` of level `k`. -/
def Under (k p j q : Nat) : Prop := j ≤ k ∧ q / 2 ^ (k - j) = p

theorem under_refl (k p : Nat) : Under k p k p := ⟨Nat.le_refl k, by simp⟩

variable {q : Nat}

theorem under_zero : Under 0 p j q ↔ j = 0 ∧ q = p := by
  constructor
  · rintro ⟨level, same⟩
    obtain rfl := Nat.le_zero.mp level
    exact ⟨rfl, by simpa using same⟩
  · rintro ⟨rfl, rfl⟩
    exact under_refl 0 q

theorem Under.eq_of_level (under : Under k p k q) : q = p := by simpa using under.2

theorem under_succ (level : j ≤ k) :
    Under (k + 1) p j q ↔ Under k (2 * p) j q ∨ Under k (2 * p + 1) j q := by
  unfold Under
  rw [show k + 1 - j = k - j + 1 by omega, pow_succ, ← Nat.div_div_eq_div_mul]
  omega

theorem Under.trans {i r : Nat} (upper : Under k p j q) (lower : Under j q i r) : Under k p i r := by
  obtain ⟨level, same⟩ := upper
  obtain ⟨level', same'⟩ := lower
  refine ⟨by omega, ?_⟩
  rw [← same, ← same', Nat.div_div_eq_div_mul, ← pow_add, show j - i + (k - j) = k - i by omega]

theorem Under.eq {p' : Nat} (under : Under k p j q) (under' : Under k p' j q) : p = p' := under.2.symm.trans under'.2

theorem Under.half (under : Under k p j q) : Under (k + 1) (p / 2) j q := by
  obtain ⟨level, same⟩ := under
  refine ⟨by omega, ?_⟩
  rw [show k + 1 - j = k - j + 1 by omega, pow_succ, ← Nat.div_div_eq_div_mul, same]

/-- The highest marked nodes of a subtree, from left to right. -/
def cover (marked : Nat → Nat → Bool) : Nat → Nat → List (Nat × Nat)
  | 0, p => if marked 0 p then [(0, p)] else []
  | k + 1, p =>
    if marked (k + 1) p then [(k + 1, p)]
    else cover marked k (2 * p) ++ cover marked k (2 * p + 1)

variable {marked : Nat → Nat → Bool}

theorem cover_of_marked (here : marked k p = true) :
    cover marked k p = [(k, p)] := by
  cases k with
  | zero => rw [cover, if_pos here]
  | succ k => rw [cover, if_pos here]

theorem mem_cover_of_marked
    (here : marked k p = true) :
    (j, q) ∈ cover marked k p
      ↔ Under k p j q ∧ marked j q = true ∧
        ∀ i, j < i → i ≤ k → marked i (q / 2 ^ (i - j)) = false := by
  rw [cover_of_marked here, List.mem_singleton, Prod.mk.injEq]
  constructor
  · rintro ⟨rfl, rfl⟩
    exact ⟨under_refl j q, here, fun i after before => by omega⟩
  · rintro ⟨under, -, clear⟩
    rcases Nat.lt_or_ge j k with below | level
    · have := clear k below (Nat.le_refl k)
      rw [under.2, here] at this
      simp at this
    · obtain rfl : j = k := Nat.le_antisymm under.1 level
      exact ⟨rfl, under.eq_of_level⟩

/-- **The cover of a subtree**: the marked nodes with no marked node between them and its top. -/
theorem mem_cover :
    (j, q) ∈ cover marked k p
      ↔ Under k p j q ∧ marked j q = true ∧
        ∀ i, j < i → i ≤ k → marked i (q / 2 ^ (i - j)) = false := by
  induction k generalizing p with
  | zero =>
    by_cases here : marked 0 p = true
    · exact mem_cover_of_marked here
    · rw [cover, if_neg here]
      refine ⟨fun member => by simp at member, ?_⟩
      rintro ⟨under, there, -⟩
      obtain ⟨rfl, rfl⟩ := under_zero.mp under
      exact absurd there here
  | succ k ih =>
    by_cases here : marked (k + 1) p = true
    · exact mem_cover_of_marked here
    · rw [cover, if_neg here, List.mem_append, ih, ih, ← or_and_right]
      constructor
      · rintro ⟨child, there, clear⟩
        have level : j ≤ k := child.elim And.left And.left
        have under := (under_succ level).mpr child
        refine ⟨under, there, fun i after before => ?_⟩
        rcases Nat.lt_or_ge i (k + 1) with low | top
        · exact clear i after (by omega)
        · obtain rfl : i = k + 1 := by omega
          rw [under.2]
          simpa using here
      · rintro ⟨under, there, clear⟩
        have level : j ≤ k := by
          rcases Nat.lt_or_ge j (k + 1) with low | top
          · omega
          · obtain rfl : j = k + 1 := Nat.le_antisymm under.1 top
            rw [under.eq_of_level] at there
            exact absurd there here
        exact ⟨(under_succ level).mp under, there, fun i after before => clear i after (by omega)⟩

theorem pairwise_cover (marked : Nat → Nat → Bool) (k p : Nat) :
    (cover marked k p).Pairwise fun a b => ¬ Under a.1 a.2 b.1 b.2 ∧ ¬ Under b.1 b.2 a.1 a.2 := by
  induction k generalizing p with
  | zero =>
    rw [cover]
    split <;> simp
  | succ k ih =>
    rw [cover]
    split
    · simp
    · refine List.pairwise_append.mpr ⟨ih _, ih _, fun a onLeft b onRight => ?_⟩
      have left := (mem_cover.mp onLeft).1
      have right := (mem_cover.mp onRight).1
      refine ⟨fun under => ?_, fun under => ?_⟩
      · have := (left.trans under).eq right
        omega
      · have := left.eq (right.trans under)
        omega

/-- **A cover has a node above every marked leaf.** -/
theorem exists_mem_cover {leaf : Nat} (here : marked 0 leaf = true) (under : Under k p 0 leaf) :
    ∃ a ∈ cover marked k p, Under a.1 a.2 0 leaf := by
  induction k generalizing p with
  | zero =>
    obtain rfl := under.eq_of_level
    exact ⟨(0, leaf), by simp [cover, here], under⟩
  | succ k ih =>
    rw [cover]
    split
    · exact ⟨(k + 1, p), by simp, under⟩
    · rcases (under_succ (Nat.zero_le k)).mp under with onLeft | onRight
      · obtain ⟨a, member, below⟩ := ih onLeft
        exact ⟨a, List.mem_append_left _ member, below⟩
      · obtain ⟨a, member, below⟩ := ih onRight
        exact ⟨a, List.mem_append_right _ member, below⟩

/-- A marked node that is above a node of the cover is that node. -/
theorem eq_of_mem_cover {i r : Nat} (member : (j, q) ∈ cover marked k p) (inTree : i ≤ k) (here : marked i r = true)
    (above : Under i r j q) : (i, r) = (j, q) := by
  obtain ⟨-, -, clear⟩ := mem_cover.mp member
  rcases Nat.lt_or_ge j i with higher | same
  · have := clear i higher inTree
    rw [above.2, here] at this
    simp at this
  · obtain rfl : i = j := le_antisymm same above.1
    rw [above.eq_of_level]

/-- Of two nodes above the same node, the higher one is above the lower one. -/
theorem Under.comparable {i r l x : Nat} (first : Under j q l x) (second : Under i r l x) (level : j ≤ i) :
    Under i r j q := by
  obtain ⟨low, same⟩ := first
  refine ⟨level, ?_⟩
  rw [← same, Nat.div_div_eq_div_mul, ← pow_add, show j - l + (i - j) = i - l by omega]
  exact second.2

/-- The cover depends on the marks of the subtree only. -/
theorem cover_congr {marked' : Nat → Nat → Bool}
    (same : ∀ j q, Under k p j q → marked j q = marked' j q) :
    cover marked k p = cover marked' k p := by
  induction k generalizing p with
  | zero => rw [cover, cover, same 0 p (under_refl 0 p)]
  | succ k ih =>
    have left := ih fun j q under => same j q ((under_succ under.1).mpr (.inl under))
    have right := ih fun j q under => same j q ((under_succ under.1).mpr (.inr under))
    rw [cover, cover, same (k + 1) p (under_refl _ _), left, right]

end PerfectTree
