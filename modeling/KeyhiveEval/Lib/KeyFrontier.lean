/-
**Secrets that are derived lazily down a perfect binary tree.**

The secret of a node is derived from that of its parent. A tree stores some of them: at first the root's only. A stored
secret can be replaced by those of the two children, and a leaf's secret can be taken out, which spends the leaf.

* `derived` — the secret of each node, derived from the root.
* `Frontier` — the stored secrets are those derived, on the path of each leaf that is not spent stands exactly one of
  them, and on the path of a spent leaf none.
* `Frontier.split`, `Frontier.take` — the two steps keep this.
-/

import Mathlib

namespace KeyFrontier

variable {Secret : Type}

/-- The secret of node `p`, `depth` levels below the root. -/
def derived (left right : Secret → Secret) (root : Secret) : Nat → Nat → Secret
  | 0, _ => root
  | depth + 1, p =>
    if p % 2 = 0 then left (derived left right root depth (p / 2))
    else right (derived left right root depth (p / 2))

/-- The nodes by level and number, with the secret that is stored there. -/
abbrev Stored (Secret : Type) := Nat → Nat → Option Secret

/-- Store another secret at a node, or none. -/
def Stored.put (stored : Stored Secret) (k p : Nat) (secret : Option Secret) : Stored Secret :=
  fun j q => if j = k ∧ q = p then secret else stored j q

theorem Stored.put_self (stored : Stored Secret) (k p : Nat) (secret : Option Secret) :
    stored.put k p secret k p = secret := if_pos ⟨rfl, rfl⟩

theorem Stored.put_of_ne {stored : Stored Secret} {k p j q : Nat} {secret : Option Secret}
    (apart : ¬ (j = k ∧ q = p)) : stored.put k p secret j q = stored j q := if_neg apart

/-- In a tree of height `height`: exactly one secret stands on the path of each leaf that is not spent, and it is the
one that is derived from the root. -/
structure Frontier (left right : Secret → Secret) (root : Secret) (height : Nat) (stored : Stored Secret)
    (spent : Nat → Prop) : Prop where
  value : ∀ {k p secret}, k ≤ height → p < 2 ^ (height - k) → stored k p = some secret →
    secret = derived left right root (height - k) p
  cleared : ∀ {leaf}, leaf < 2 ^ height → spent leaf → ∀ {k}, k ≤ height → stored k (leaf / 2 ^ k) = none
  covered : ∀ {leaf}, leaf < 2 ^ height → ¬ spent leaf → ∃ k ≤ height, stored k (leaf / 2 ^ k) ≠ none
  single : ∀ {leaf}, leaf < 2 ^ height → ∀ {j k}, j ≤ height → k ≤ height →
    stored j (leaf / 2 ^ j) ≠ none → stored k (leaf / 2 ^ k) ≠ none → j = k

section

variable {left right : Secret → Secret} {root : Secret} {height : Nat} {stored : Stored Secret}
  {spent : Nat → Prop}

theorem frontier_root : Frontier left right root height
    (Stored.put (fun _ _ => none) height 0 (some root)) (fun _ => False) where
  value {k p secret} low within here := by
    by_cases top : k = height ∧ p = 0
    · obtain ⟨rfl, rfl⟩ := top
      rw [Stored.put_self] at here
      rw [Nat.sub_self]
      exact (Option.some.inj here).symm
    · rw [Stored.put_of_ne top] at here
      simp at here
  cleared _ absurd := absurd.elim
  covered {leaf} within _ := by
    refine ⟨height, le_rfl, ?_⟩
    rw [Nat.div_eq_of_lt within, Stored.put_self]
    simp
  single {leaf} within {j k} _ _ atJ atK := by
    have top : ∀ {i}, Stored.put (fun _ _ => none) height 0 (some root) i (leaf / 2 ^ i) ≠ none → i = height := by
      intro i here
      by_contra other
      rw [Stored.put_of_ne fun same => other same.1] at here
      exact here rfl
    rw [top atJ, top atK]

variable {leaf : Nat}

/-- A leaf of a subtree with a stored secret is not spent, and no other secret stands on its path. -/
theorem Frontier.alone (frontier : Frontier left right root height stored spent) {k : Nat}
    (within : leaf < 2 ^ height) (low : k ≤ height) (here : stored k (leaf / 2 ^ k) ≠ none) {j : Nat}
    (other : j ≤ height) (apart : j ≠ k) : stored j (leaf / 2 ^ j) = none := by
  by_contra there
  exact apart (frontier.single within other low there here)

theorem Frontier.not_spent (frontier : Frontier left right root height stored spent) {k : Nat}
    (within : leaf < 2 ^ height) (low : k ≤ height) (here : stored k (leaf / 2 ^ k) ≠ none) : ¬ spent leaf :=
  fun isSpent => here (frontier.cleared within isSpent low)

theorem Frontier.child_none (frontier : Frontier left right root height stored spent) {k q : Nat}
    (low : k + 1 ≤ height) (within : q < 2 ^ (height - k)) (here : stored (k + 1) (q / 2) ≠ none) :
    stored k q = none := by
  have inTree : q * 2 ^ k < 2 ^ height := by
    rw [show height = height - k + k by omega, pow_add]
    exact Nat.mul_lt_mul_of_pos_right within (Nat.two_pow_pos k)
  have node : q * 2 ^ k / 2 ^ k = q := Nat.mul_div_cancel q (Nat.two_pow_pos k)
  have none := frontier.alone inTree low (by rwa [pow_succ, ← Nat.div_div_eq_div_mul, node]) (j := k) (by omega) (by omega)
  rwa [node] at none

/-- Replace the secret of a node by those of its children. -/
def Stored.split (stored : Stored Secret) (left right : Secret → Secret) (k p : Nat) (secret : Secret) :
    Stored Secret :=
  ((stored.put k (2 * p) (some (left secret))).put k (2 * p + 1) (some (right secret))).put (k + 1) p none

variable {secret : Secret}

theorem Stored.split_below (stored : Stored Secret) {k p q : Nat} (child : q / 2 = p) :
    stored.split left right k p secret k q
      = some (if q % 2 = 0 then left secret else right secret) := by
  rw [split, put_of_ne (by omega)]
  by_cases even : q % 2 = 0
  · rw [put_of_ne (by omega), show q = 2 * p by omega, put_self, if_pos (by omega)]
  · rw [show q = 2 * p + 1 by omega, put_self, if_neg (by omega)]

theorem Stored.split_self (stored : Stored Secret) (k p : Nat) (secret : Secret) :
    stored.split left right k p secret (k + 1) p = none := put_self _ _ _ _

theorem Stored.split_of_ne (stored : Stored Secret) {k p j q : Nat}
    (notNode : ¬ (j = k + 1 ∧ q = p)) (notChild : ¬ (j = k ∧ q / 2 = p)) :
    stored.split left right k p secret j q = stored j q := by
  rw [split, put_of_ne notNode, put_of_ne (by omega), put_of_ne (by omega)]

/-- To split a node that is taken out already, and to keep only one of the children. -/
theorem Stored.split_put {stored : Stored Secret} {k q q' : Nat} (siblings : q' / 2 = q / 2) (apart : q' ≠ q)
    (free : stored k q = none) :
    (stored.put (k + 1) (q / 2) none).put k q' (some (if q' % 2 = 0 then left secret else right secret))
      = (stored.split left right k (q / 2) secret).put k q none := by
  funext j r
  by_cases here : j = k ∧ r = q
  · obtain ⟨rfl, rfl⟩ := here
    rw [put_self, put_of_ne (by omega), put_of_ne (by omega), free]
  · rw [put_of_ne here]
    by_cases beside : j = k ∧ r = q'
    · obtain ⟨rfl, rfl⟩ := beside
      rw [put_self, split_below _ siblings]
    · rw [put_of_ne beside]
      by_cases up : j = k + 1 ∧ r = q / 2
      · obtain ⟨rfl, rfl⟩ := up
        rw [put_self, split_self]
      · rw [put_of_ne up, split_of_ne _ up (by omega)]

theorem Frontier.split (frontier : Frontier left right root height stored spent) {k p : Nat}
    (low : k + 1 ≤ height) (within : p < 2 ^ (height - (k + 1))) (here : stored (k + 1) p = some secret) :
    Frontier left right root height (stored.split left right k p secret) spent := by
  have up : ∀ leaf, leaf / 2 ^ (k + 1) = leaf / 2 ^ k / 2 := fun leaf => by
    rw [pow_succ, Nat.div_div_eq_div_mul]
  -- along the path of a leaf below the node, the secret is now one level lower
  have below : ∀ {leaf}, leaf < 2 ^ height → leaf / 2 ^ (k + 1) = p → ∀ {j}, j ≤ height →
      (stored.split left right k p secret j (leaf / 2 ^ j) ≠ none ↔ j = k) := by
    intro leaf inTree under j inHeight
    by_cases isChild : j = k
    · subst isChild
      simp [Stored.split_below stored ((up leaf).symm.trans under)]
    · simp only [isChild, iff_false, not_not]
      by_cases isNode : j = k + 1
      · subst isNode
        rw [under, Stored.split_self]
      · rw [Stored.split_of_ne stored (fun same => isNode same.1) (fun same => isChild same.1)]
        exact frontier.alone inTree low (by rw [under, here]; simp) inHeight isNode
  have beside : ∀ {leaf}, leaf / 2 ^ (k + 1) ≠ p → ∀ {j},
      stored.split left right k p secret j (leaf / 2 ^ j) = stored j (leaf / 2 ^ j) := by
    intro leaf notUnder j
    refine Stored.split_of_ne stored ?_ ?_
    · rintro ⟨rfl, same⟩
      exact notUnder same
    · rintro ⟨rfl, same⟩
      exact notUnder ((up leaf).trans same)
  refine ⟨?_, ?_, ?_, ?_⟩
  · intro j q found inHeight inLevel there
    by_cases isChild : j = k ∧ q / 2 = p
    · obtain ⟨rfl, child⟩ := isChild
      rw [Stored.split_below stored child] at there
      rw [← Option.some.inj there, frontier.value low within here,
        show height - j = height - (j + 1) + 1 by omega, derived, child]
    · by_cases isNode : j = k + 1 ∧ q = p
      · obtain ⟨rfl, rfl⟩ := isNode
        rw [Stored.split_self] at there
        simp at there
      · rw [Stored.split_of_ne stored isNode isChild] at there
        exact frontier.value inHeight inLevel there
  · intro leaf inTree isSpent j inHeight
    have notUnder : leaf / 2 ^ (k + 1) ≠ p := by
      intro under
      exact frontier.not_spent inTree low (by rw [under, here]; simp) isSpent
    rw [beside notUnder]
    exact frontier.cleared inTree isSpent inHeight
  · intro leaf inTree notSpent
    by_cases under : leaf / 2 ^ (k + 1) = p
    · exact ⟨k, by omega, (below inTree under (by omega)).mpr rfl⟩
    · obtain ⟨j, inHeight, there⟩ := frontier.covered inTree notSpent
      exact ⟨j, inHeight, by rwa [beside under]⟩
  · intro leaf inTree i j lowI lowJ atI atJ
    by_cases under : leaf / 2 ^ (k + 1) = p
    · rw [(below inTree under lowI).mp atI, (below inTree under lowJ).mp atJ]
    · rw [beside under] at atI atJ
      exact frontier.single inTree lowI lowJ atI atJ

theorem Frontier.take (frontier : Frontier left right root height stored spent)
    (within : leaf < 2 ^ height) (here : stored 0 leaf ≠ none) :
    Frontier left right root height (stored.put 0 leaf none) (fun other => spent other ∨ other = leaf) := by
  have kept : ∀ {other j}, stored.put 0 leaf none j (other / 2 ^ j) ≠ none →
      stored j (other / 2 ^ j) ≠ none := by
    intro other j there
    by_cases isLeaf : j = 0 ∧ other / 2 ^ j = leaf
    · obtain ⟨rfl, same⟩ := isLeaf
      rw [same, Stored.put_self] at there
      exact absurd rfl there
    · rwa [Stored.put_of_ne isLeaf] at there
  refine ⟨?_, ?_, ?_, ?_⟩
  · intro k p secret low inLevel there
    by_cases isLeaf : k = 0 ∧ p = leaf
    · rw [isLeaf.1, isLeaf.2, Stored.put_self] at there
      simp at there
    · rw [Stored.put_of_ne isLeaf] at there
      exact frontier.value low inLevel there
  · intro other inTree isSpent k low
    by_contra there
    rcases isSpent with before | rfl
    · exact kept there (frontier.cleared inTree before low)
    · obtain rfl : k = 0 := frontier.single inTree low (Nat.zero_le _) (kept there) (by simpa using here)
      rw [pow_zero, Nat.div_one, Stored.put_self] at there
      exact there rfl
  · intro other inTree notSpent
    obtain ⟨k, low, there⟩ := frontier.covered inTree fun before => notSpent (.inl before)
    refine ⟨k, low, ?_⟩
    rw [Stored.put_of_ne]
    · exact there
    · rintro ⟨rfl, same⟩
      exact notSpent (.inr (by simpa using same))
  · intro other inTree j k lowJ lowK atJ atK
    exact frontier.single inTree lowJ lowK (kept atJ) (kept atK)

end

end KeyFrontier
