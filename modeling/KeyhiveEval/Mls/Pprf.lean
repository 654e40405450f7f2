/-
**`pprf/mod.rs`: the puncturable pseudorandom function of the key schedule.**

The function keeps the secrets of some nodes of a binary tree, at first of the root only, under prefixes that encode the
way from the root. To evaluate it at an input takes the stored node above the input's leaf out, derives the secrets down
to the leaf and stores those beside the way.

* `Prefix` — what the source asks of a prefix, and `Prefix16`, the one it has.
* `Pprf.evaluate` — the evaluation. A panic and a failed debug assertion are results of their own.
* `Pprf.stored` — the nodes by level and number, so that the stored secrets are a frontier of secrets derived down a
  tree (`KeyFrontier.Frontier`). `Pprf.after_walk` is the step from the node to the leaf.
* `Pprf.evaluate_punctures` — every input has its value once.
-/

import KeyhiveEval.Mls.SecretTree

namespace KeyhiveEval.Mls

open Stateful KeyFrontier

/-! ### Bits -/

/-- The number with the given bits, the first one on top. -/
def ofBits (bits : List Bool) : Nat := bits.foldl (fun number bit => 2 * number + bit.toNat) 0

theorem ofBits_append (bits : List Bool) (bit : Bool) : ofBits (bits ++ [bit]) = 2 * ofBits bits + bit.toNat := by
  simp [ofBits]

theorem ofBits_lt (bits : List Bool) : ofBits bits < 2 ^ bits.length := by
  induction bits using List.reverseRecOn with
  | nil => simp [ofBits]
  | append_singleton bits bit ih =>
    rw [ofBits_append, List.length_append, List.length_singleton, pow_succ]
    have := bit.toNat_le
    omega

theorem ofBits_injective {first second : List Bool} (lengths : first.length = second.length)
    (same : ofBits first = ofBits second) : first = second := by
  induction first using List.reverseRecOn generalizing second with
  | nil => exact (List.length_eq_zero_iff.mp lengths.symm).symm
  | append_singleton first bit ih =>
    rcases second.eq_nil_or_concat with rfl | ⟨second, bit', rfl⟩
    · simp at lengths
    · rw [List.concat_eq_append, ofBits_append, ofBits_append] at same
      have lower := bit.toNat_le
      have lower' := bit'.toNat_le
      rw [ih (by simpa using lengths) (by omega), List.concat_eq_append,
        show bit = bit' by cases bit <;> cases bit' <;> simp_all <;> omega]

/-- The lowest bits of a number, the highest of them first. -/
def bitsOf : Nat → Nat → List Bool
  | 0, _ => []
  | count + 1, number => bitsOf count (number / 2) ++ [decide (number % 2 = 1)]

theorem length_bitsOf (count number : Nat) : (bitsOf count number).length = count := by
  induction count generalizing number with
  | zero => rfl
  | succ count ih => rw [bitsOf, List.length_append, ih, List.length_singleton]

theorem ofBits_bitsOf {count number : Nat} (small : number < 2 ^ count) : ofBits (bitsOf count number) = number := by
  induction count generalizing number with
  | zero =>
    have : number = 0 := by simpa using small
    rw [this]
    rfl
  | succ count ih =>
    rw [pow_succ] at small
    rw [bitsOf, ofBits_append, ih (by omega)]
    rcases Nat.mod_two_eq_zero_or_one number with even | odd
    · simp only [even, Nat.zero_ne_one, decide_false, Bool.toNat_false]
      omega
    · simp only [odd, decide_true, Bool.toNat_true]
      omega

theorem bitsOf_ofBits (bits : List Bool) : bitsOf bits.length (ofBits bits) = bits :=
  ofBits_injective (length_bitsOf _ _) (ofBits_bitsOf (ofBits_lt bits))

theorem take_bitsOf (depth rest number : Nat) :
    (bitsOf (depth + rest) number).take depth = bitsOf depth (number / 2 ^ rest) := by
  induction rest generalizing number with
  | zero =>
    rw [pow_zero, Nat.div_one]
    exact List.take_of_length_le (length_bitsOf _ _).le
  | succ rest ih =>
    rw [← Nat.add_assoc, bitsOf, List.take_append_of_le_length (by rw [length_bitsOf]; omega), ih,
      Nat.div_div_eq_div_mul, ← pow_succ']

theorem getElem?_bitsOf {count index : Nat} (number : Nat) (small : index < count) :
    (bitsOf count number)[index]? = some (decide (number / 2 ^ (count - 1 - index) % 2 = 1)) := by
  have upTo := take_bitsOf (index + 1) (count - 1 - index) number
  rw [show index + 1 + (count - 1 - index) = count by omega] at upTo
  have here : (bitsOf count number)[index]? = ((bitsOf count number).take (index + 1))[index]? :=
    (List.getElem?_take_of_lt (by omega)).symm
  rw [here, upTo, bitsOf, List.getElem?_append_right (by rw [length_bitsOf]), length_bitsOf, Nat.sub_self]
  rfl

/-- The bits of an input, each byte with its highest bit first. -/
def inputBits (input : List UInt8) : List Bool := input.flatMap fun byte => bitsOf 8 byte.toNat

theorem length_inputBits (input : List UInt8) : (inputBits input).length = 8 * input.length := by
  induction input with
  | nil => rfl
  | cons byte rest ih =>
    rw [inputBits, List.flatMap_cons, List.length_append, length_bitsOf, ← inputBits, ih, List.length_cons]
    omega

theorem inputBits_injective {first second : List UInt8} (lengths : first.length = second.length)
    (same : inputBits first = inputBits second) : first = second := by
  induction first generalizing second with
  | nil => exact (List.length_eq_zero_iff.mp lengths.symm).symm
  | cons byte rest ih =>
    cases second with
    | nil => simp at lengths
    | cons byte' rest' =>
      rw [inputBits, inputBits, List.flatMap_cons, List.flatMap_cons] at same
      obtain ⟨head, tail⟩ := List.append_inj same (by rw [length_bitsOf, length_bitsOf])
      have number := congrArg ofBits head
      rw [ofBits_bitsOf byte.toNat_lt, ofBits_bitsOf byte'.toNat_lt] at number
      rw [UInt8.toNat_inj.mp number, ih (by simpa using lengths) tail]

/-! ### Prefixes -/

/-- `Prefix`: the depth of the tree, the prefix of the root, and the prefix of a child. -/
class Prefix (P : Type) where
  maxDepth : Nat
  new : P
  pushBit : P → Bool → P

namespace Prefix

variable (P : Type) [Prefix P]

/-- `MAX_INPUT_LEN`, in bytes. -/
def maxInputLen : Nat := maxDepth P / 8

variable {P}

/-- The prefix of the node that is reached by some bits. -/
def ofBits (bits : List Bool) : P := bits.foldl pushBit new

/-- What a prefix is for: different ways down the tree have different prefixes. -/
class Lawful (P : Type) [Prefix P] : Prop where
  bytes : 8 ∣ maxDepth P
  injective : ∀ first second : List Bool, first.length ≤ maxDepth P → second.length ≤ maxDepth P →
    ofBits (P := P) first = ofBits second → first = second

end Prefix

/-- A prefix of up to 16 bits, and their number. -/
structure Prefix16 where
  bits : UInt16
  len : UInt8
deriving DecidableEq

instance : Prefix Prefix16 where
  maxDepth := 16
  new := ⟨0, 0⟩
  pushBit encoded bit := ⟨encoded.bits <<< 1 ||| (if bit then 1 else 0), encoded.len + 1⟩

theorem toNat_ofBits16 {bits : List Bool} (short : bits.length ≤ 16) :
    (Prefix.ofBits bits : Prefix16).bits.toNat = ofBits bits ∧
      (Prefix.ofBits bits : Prefix16).len.toNat = bits.length := by
  induction bits using List.reverseRecOn with
  | nil => exact ⟨rfl, rfl⟩
  | append_singleton bits bit ih =>
    rw [List.length_append, List.length_singleton] at short
    obtain ⟨value, count⟩ := ih (by omega)
    have small := ofBits_lt bits
    have bound : 2 ^ bits.length ≤ 2 ^ 15 := Nat.pow_le_pow_right (by omega) (by omega)
    have step : (Prefix.ofBits (bits ++ [bit]) : Prefix16)
        = Prefix.pushBit (Prefix.ofBits bits) bit := by simp [Prefix.ofBits]
    rw [step, ofBits_append, List.length_append, List.length_singleton]
    constructor
    · show ((Prefix.ofBits bits : Prefix16).bits <<< 1 ||| (if bit then 1 else 0)).toNat = _
      have shifted : ofBits bits <<< 1 < 2 ^ 16 := by
        rw [Nat.shiftLeft_eq]
        omega
      rw [UInt16.toNat_or, UInt16.toNat_shiftLeft, value, show (1 : UInt16).toNat % 16 = 1 from rfl,
        Nat.mod_eq_of_lt shifted]
      have last : (if bit then (1 : UInt16) else 0).toNat = bit.toNat := by cases bit <;> rfl
      rw [last, ← Nat.shiftLeft_add_eq_or_of_lt (Nat.lt_of_le_of_lt bit.toNat_le (by decide)), Nat.shiftLeft_eq]
      omega
    · show ((Prefix.ofBits bits : Prefix16).len + 1).toNat = _
      rw [UInt8.toNat_add, count]
      exact Nat.mod_eq_of_lt (by simp; omega)

instance : Prefix.Lawful Prefix16 where
  bytes := by decide
  injective first second shortFirst shortSecond same := by
    obtain ⟨value, count⟩ := toNat_ofBits16 shortFirst
    obtain ⟨value', count'⟩ := toNat_ofBits16 shortSecond
    rw [same] at value count
    exact ofBits_injective (count.symm.trans count') (value.symm.trans value')

/-! ### The function -/

/-- Why an evaluation does not return a secret: the two errors, a panic, or a debug assertion that fails. -/
inductive PprfFault
  | indexOutOfBounds
  | puncturedInput
  | panic
  | assertionFailed
deriving DecidableEq

structure Pprf (P Secret : Type) where
  nodes : P → Option Secret
  width : Nat

abbrev PprfM (P Secret : Type) := EStateM PprfFault (Pprf P Secret)

namespace Pprf

variable {P Secret : Type}

/-- The bit at an index. A slice that is too short is a panic. -/
def getBit (index : List UInt8) (bitIndex : Nat) : Option Bool :=
  index[bitIndex / 8]?.map fun byte => byte.toNat >>> (7 - bitIndex % 8) &&& 1 == 1

def deriveChildren (suite : Ciphersuite) (provider : Provider Secret) (node : Secret) :
    Except CryptoError (Secret × Secret) := do
  let left ← provider node "tree" SecretTree.leftContext suite.hashLength
  let right ← provider node "tree" SecretTree.rightContext suite.hashLength
  return (left, right)

/-- `unwrap`. -/
def unwrap {α : Type} : Option α → PprfM P Secret α
  | some value => pure value
  | none => throw .panic

variable [Prefix P] [DecidableEq P]

def newWithSize (secret : Secret) (size : Beekem.TreeSize) : Pprf P Secret :=
  ⟨Function.update (fun _ => none) Prefix.new (some secret), size.leafCount⟩

/-- `HashMap::remove` -/
def remove (key : P) : PprfM P Secret (Option Secret) := fun pprf =>
  .ok (pprf.nodes key) { pprf with nodes := Function.update pprf.nodes key none }

/-- `HashMap::insert` -/
def insert (key : P) (node : Secret) : PprfM P Secret (Option Secret) := fun pprf =>
  .ok (pprf.nodes key) { pprf with nodes := Function.update pprf.nodes key (some node) }

/-- The first loop of `evaluate`, with the number of levels that are left: the stored node above the leaf. -/
def findNode (input : List UInt8) : Nat → Nat → P → PprfM P Secret (Secret × Nat × P)
  | 0, depth, key => do
    match ← remove key with
    | some node => return (node, depth, key)
    | none => throw .puncturedInput
  | left + 1, depth, key => do
    match ← remove key with
    | some node => return (node, depth, key)
    | none =>
      let bit ← unwrap (getBit input depth)
      findNode input left (depth + 1) (Prefix.pushBit key bit)

/-- The second loop of `evaluate`: down to the leaf. -/
def walk (suite : Ciphersuite) (provider : Provider Secret) (input : List UInt8) :
    Nat → Nat → P → Secret → PprfM P Secret Secret
  | 0, _, _, node => return node
  | left + 1, depth, key, node => do
    let (leftNode, rightNode) ← unwrap (deriveChildren suite provider node).toOption
    let bit ← unwrap (getBit input depth)
    let (nextNode, copathNode) := if bit then (rightNode, leftNode) else (leftNode, rightNode)
    let nodeAtCopathPrefix ← insert (Prefix.pushBit key !bit) copathNode
    if nodeAtCopathPrefix.isSome then throw .assertionFailed
    walk suite provider input left (depth + 1) (Prefix.pushBit key bit) nextNode

/-- A leaf that is stored itself is returned as it is: nothing is left to walk. -/
def evaluate (suite : Ciphersuite) (provider : Provider Secret) (input : List UInt8) : PprfM P Secret Secret := do
  if input.length > Prefix.maxInputLen P then throw .indexOutOfBounds
  let (node, depth, key) ← findNode input (Prefix.maxDepth P) 0 Prefix.new
  walk suite provider input (Prefix.maxDepth P - depth) depth key node

theorem getBit_eq (input : List UInt8) (index : Nat) : getBit input index = (inputBits input)[index]? := by
  induction input generalizing index with
  | nil => simp [getBit, inputBits]
  | cons byte rest ih =>
    rw [inputBits, List.flatMap_cons, ← inputBits]
    by_cases first : index < 8
    · rw [List.getElem?_append_left (by rwa [length_bitsOf]), getElem?_bitsOf _ first, getBit,
        Nat.div_eq_of_lt first, Nat.mod_eq_of_lt first, List.getElem?_cons_zero, Option.map_some,
        Nat.shiftRight_eq_div_pow, Nat.and_one_is_mod]
      simp [beq_eq_decide]
    · rw [List.getElem?_append_right (by rw [length_bitsOf]; omega), length_bitsOf, ← ih, getBit, getBit,
        show index / 8 = (index - 8) / 8 + 1 by omega, List.getElem?_cons_succ, show index % 8 = (index - 8) % 8 by omega]

/-! ### Nodes by level -/

def keyAt (k p : Nat) : P := Prefix.ofBits (bitsOf (Prefix.maxDepth P - k) p)

def stored (pprf : Pprf P Secret) : Stored Secret := fun k p =>
  if k ≤ Prefix.maxDepth P ∧ p < 2 ^ (Prefix.maxDepth P - k) then pprf.nodes (keyAt k p) else none

omit [DecidableEq P] in
theorem pushBit_keyAt {k : Nat} (low : k + 1 ≤ Prefix.maxDepth P) (p : Nat) (bit : Bool) :
    Prefix.pushBit (keyAt (k + 1) p) bit = (keyAt k (2 * p + bit.toNat) : P) := by
  have last : decide ((2 * p + bit.toNat) % 2 = 1) = bit := by cases bit <;> simp
  have half : (2 * p + bit.toNat) / 2 = p := by
    have := bit.toNat_le
    omega
  rw [keyAt, keyAt, show Prefix.maxDepth P - k = Prefix.maxDepth P - (k + 1) + 1 by omega, bitsOf, last, half,
    Prefix.ofBits, Prefix.ofBits, List.foldl_append, List.foldl_cons, List.foldl_nil]

section Frontiers

variable [Prefix.Lawful P] {pprf : Pprf P Secret} {k p : Nat}

theorem stored_update (pprf : Pprf P Secret) (level : k ≤ Prefix.maxDepth P) (within : p < 2 ^ (Prefix.maxDepth P - k))
    (secret : Option Secret) :
    stored { pprf with nodes := Function.update pprf.nodes (keyAt k p) secret } = (stored pprf).put k p secret := by
  funext j q
  unfold stored Stored.put
  dsimp only
  by_cases inTree : j ≤ Prefix.maxDepth P ∧ q < 2 ^ (Prefix.maxDepth P - j)
  · rw [if_pos inTree, if_pos inTree, Function.update_apply]
    by_cases same : j = k ∧ q = p
    · obtain ⟨rfl, rfl⟩ := same
      simp
    · rw [if_neg same, if_neg]
      intro equal
      have bits := Prefix.Lawful.injective _ _ (by rw [length_bitsOf]; omega) (by rw [length_bitsOf]; omega) equal
      have lengths := congrArg List.length bits
      rw [length_bitsOf, length_bitsOf] at lengths
      obtain rfl : j = k := by omega
      have numbers := congrArg Mls.ofBits bits
      rw [ofBits_bitsOf inTree.2, ofBits_bitsOf within] at numbers
      exact same ⟨rfl, numbers⟩
  · have other : ¬ (j = k ∧ q = p) := by
      rintro ⟨rfl, rfl⟩
      exact inTree ⟨level, within⟩
    rw [if_neg inTree, if_neg other, if_neg inTree]

variable {suite : Ciphersuite} {kdf : Kdf Secret} {secret : Secret} {spent : Nat → Prop} {input : List UInt8}

variable (P suite kdf secret) in
/-- The stored secrets are derived from the root, one above every leaf that is not spent and none above the others. -/
abbrev Punctured (stored : Stored Secret) (spent : Nat → Prop) : Prop :=
  Frontier (SecretTree.leftOf suite kdf) (SecretTree.rightOf suite kdf) secret (Prefix.maxDepth P) stored spent

variable (P suite kdf secret) in
theorem frontier_newWithSize (size : Beekem.TreeSize) :
    Punctured P suite kdf secret (stored (newWithSize secret size : Pprf P Secret)) fun _ => False := by
  have root : (Prefix.new : P) = keyAt (Prefix.maxDepth P) 0 := by
    rw [keyAt, Nat.sub_self]
    rfl
  have empty : stored (⟨fun _ => none, size.leafCount⟩ : Pprf P Secret) = fun _ _ => none := by
    funext j q
    simp [stored]
  have written := stored_update (⟨fun _ => none, size.leafCount⟩ : Pprf P Secret) (le_refl (Prefix.maxDepth P))
    (p := 0) (by simp) (some secret)
  rw [empty, ← root] at written
  rw [newWithSize, written]
  exact frontier_root

/-- The number of the leaf of an input. -/
def leafOf (input : List UInt8) : Nat := Mls.ofBits (inputBits input)

/-- The children of a node on the way to a leaf: the next one, and the one beside the way. -/
theorem next_and_copath (number : Nat) :
    2 * (number / 2) + (decide (number % 2 = 1)).toNat = number ∧
      2 * (number / 2) + (!decide (number % 2 = 1)).toNat = Beekem.twin number := by
  unfold Beekem.twin
  rcases Nat.mod_two_eq_zero_or_one number with even | odd
  · have zero : decide (number % 2 = 1) = false := by simp [even]
    rw [zero, Bool.not_false, Bool.toNat_false, Bool.toNat_true]
    omega
  · have one : decide (number % 2 = 1) = true := by simp [odd]
    rw [one, Bool.not_true, Bool.toNat_false, Bool.toNat_true]
    omega

section Leaf

variable (length : input.length = Prefix.maxInputLen P)

include length

omit [DecidableEq P] in
theorem length_bits : (inputBits input).length = Prefix.maxDepth P := by
  rw [length_inputBits, length, Prefix.maxInputLen]
  exact Nat.mul_div_cancel' Prefix.Lawful.bytes

omit [DecidableEq P] in
theorem leafOf_lt : leafOf input < 2 ^ Prefix.maxDepth P := by
  rw [← length_bits length]
  exact ofBits_lt _

omit [DecidableEq P] in
theorem leafOf_div_lt (level : k ≤ Prefix.maxDepth P) : leafOf input / 2 ^ k < 2 ^ (Prefix.maxDepth P - k) := by
  rw [Nat.div_lt_iff_lt_mul (Nat.two_pow_pos k), ← pow_add, Nat.sub_add_cancel level]
  exact leafOf_lt length

omit [DecidableEq P] in
theorem stored_path (pprf : Pprf P Secret) (level : k ≤ Prefix.maxDepth P) :
    stored pprf k (leafOf input / 2 ^ k) = pprf.nodes (keyAt k (leafOf input / 2 ^ k)) :=
  if_pos ⟨level, leafOf_div_lt length level⟩

omit [DecidableEq P] in
theorem keyAt_path (level : k ≤ Prefix.maxDepth P) :
    (keyAt k (leafOf input / 2 ^ k) : P) = Prefix.ofBits ((inputBits input).take (Prefix.maxDepth P - k)) := by
  have bits := bitsOf_ofBits (inputBits input)
  have taken := take_bitsOf (Prefix.maxDepth P - k) k (leafOf input)
  rw [length_bits length] at bits
  rw [Nat.sub_add_cancel level, leafOf, bits] at taken
  rw [taken, keyAt, leafOf]

omit [DecidableEq P] in
theorem getBit_path (low : k + 1 ≤ Prefix.maxDepth P) :
    getBit input (Prefix.maxDepth P - (k + 1)) = some (decide (leafOf input / 2 ^ k % 2 = 1)) := by
  have bits := bitsOf_ofBits (inputBits input)
  rw [length_bits length] at bits
  rw [getBit_eq, ← bits, getElem?_bitsOf _ (by omega),
    show Prefix.maxDepth P - 1 - (Prefix.maxDepth P - (k + 1)) = k by omega, leafOf]

/-- **The first loop** finds the stored node above the leaf and takes it out, or finds none and changes nothing. -/
theorem after_findNode (level : k ≤ Prefix.maxDepth P)
    (clear : ∀ j, k < j → j ≤ Prefix.maxDepth P → stored pprf j (leafOf input / 2 ^ j) = none) :
    After (findNode input k (Prefix.maxDepth P - k) (keyAt k (leafOf input / 2 ^ k)) pprf)
      (fun found pprf' => ∃ j ≤ Prefix.maxDepth P,
        found.2 = (Prefix.maxDepth P - j, keyAt j (leafOf input / 2 ^ j)) ∧
        stored pprf j (leafOf input / 2 ^ j) = some found.1 ∧
        stored pprf' = (stored pprf).put j (leafOf input / 2 ^ j) none)
      (fun fault pprf' => fault = .puncturedInput ∧ pprf' = pprf ∧
        ∀ j ≤ Prefix.maxDepth P, stored pprf j (leafOf input / 2 ^ j) = none) := by
  have here := stored_path length pprf level
  have removed := stored_update pprf level (leafOf_div_lt length level) none
  have unchanged : pprf.nodes (keyAt k (leafOf input / 2 ^ k)) = none →
      { pprf with nodes := Function.update pprf.nodes (keyAt k (leafOf input / 2 ^ k)) none } = pprf := by
    intro absent
    rw [Function.update_eq_self_iff.mpr absent.symm]
  induction k with
  | zero =>
    rw [findNode, after_bind, remove, after_ok]
    cases found : pprf.nodes (keyAt 0 (leafOf input / 2 ^ 0)) with
    | some node => exact ⟨0, level, rfl, here.trans found, removed⟩
    | none =>
      refine ⟨rfl, unchanged found, fun j inTree => ?_⟩
      rcases Nat.eq_zero_or_pos j with rfl | above
      · exact here.trans found
      · exact clear j above inTree
  | succ k ih =>
    rw [findNode, after_bind, remove, after_ok]
    cases found : pprf.nodes (keyAt (k + 1) (leafOf input / 2 ^ (k + 1))) with
    | some node => exact ⟨k + 1, level, rfl, here.trans found, removed⟩
    | none =>
      have bit := (next_and_copath (leafOf input / 2 ^ k)).1
      rw [Nat.div_div_eq_div_mul, ← pow_succ] at bit
      rw [unchanged found]
      dsimp only
      rw [after_bind, getBit_path length level, unwrap, after_pure, pushBit_keyAt level, bit,
        show Prefix.maxDepth P - (k + 1) + 1 = Prefix.maxDepth P - k by omega]
      refine ih (by omega) (fun j above inTree => ?_) (stored_path length pprf (by omega))
        (stored_update pprf (by omega) (leafOf_div_lt length (by omega)) none) ?_
      · rcases Nat.eq_or_lt_of_le above with rfl | higher
        · exact here.trans found
        · exact clear j higher inTree
      · intro absent
        rw [Function.update_eq_self_iff.mpr absent.symm]

/-- **The second loop.** What is stored, together with the secret in hand, is a frontier at every step. -/
theorem after_walk {whole : Stored Secret} {node : Secret} (level : k ≤ Prefix.maxDepth P)
    (frontier : Punctured P suite kdf secret whole spent)
    (inHand : whole k (leafOf input / 2 ^ k) = some node)
    (rest : stored pprf = whole.put k (leafOf input / 2 ^ k) none) :
    After (walk suite (.ofKdf kdf) input k (Prefix.maxDepth P - k) (keyAt k (leafOf input / 2 ^ k)) node pprf)
      (fun value pprf' =>
        value = derived (SecretTree.leftOf suite kdf) (SecretTree.rightOf suite kdf) secret (Prefix.maxDepth P)
          (leafOf input) ∧
        Punctured P suite kdf secret (stored pprf') fun other => spent other ∨ other = leafOf input)
      (fun _ _ => False) := by
  induction k generalizing whole node pprf with
  | zero =>
    rw [pow_zero, Nat.div_one] at inHand rest
    rw [walk, after_pure, rest]
    refine ⟨?_, frontier.take (leafOf_lt length) (by rw [inHand]; simp)⟩
    exact frontier.value (Nat.zero_le _) (leafOf_lt length) inHand
  | succ k ih =>
    have up : leafOf input / 2 ^ (k + 1) = leafOf input / 2 ^ k / 2 := by rw [pow_succ, Nat.div_div_eq_div_mul]
    have within := leafOf_div_lt length (show k ≤ Prefix.maxDepth P by omega)
    have upWithin := leafOf_div_lt length level
    have derives : (deriveChildren suite (.ofKdf kdf) node).toOption
        = some (SecretTree.leftOf suite kdf node, SecretTree.rightOf suite kdf node) := rfl
    rw [walk, after_bind, derives, unwrap, after_pure]
    dsimp only
    rw [after_bind, getBit_path length level, unwrap, after_pure, pushBit_keyAt level, pushBit_keyAt level]
    rw [up] at inHand rest upWithin ⊢
    generalize leafOf input / 2 ^ k = number at *
    obtain ⟨next, copath⟩ := next_and_copath number
    have twinWithin : Beekem.twin number < 2 ^ (Prefix.maxDepth P - k) :=
      (Beekem.Inside.twin ⟨by omega, within⟩ level).within
    have half : Beekem.twin number / 2 = number / 2 := by
      unfold Beekem.twin
      omega
    have split := frontier.split level upWithin inHand
    have noNext : whole k number = none := frontier.child_none level within (by rw [inHand]; simp)
    have noCopath : whole k (Beekem.twin number) = none :=
      frontier.child_none level twinWithin (by rw [half, inHand]; simp)
    have free : pprf.nodes (keyAt k (Beekem.twin number)) = none := by
      have here : stored pprf k (Beekem.twin number) = pprf.nodes (keyAt k (Beekem.twin number)) :=
        if_pos ⟨by omega, twinWithin⟩
      rw [← here, rest, Stored.put_of_ne (by omega), noCopath]
    have children : (if decide (number % 2 = 1) = true
          then (SecretTree.rightOf suite kdf node, SecretTree.leftOf suite kdf node)
          else (SecretTree.leftOf suite kdf node, SecretTree.rightOf suite kdf node))
        = (if number % 2 = 0 then SecretTree.leftOf suite kdf node else SecretTree.rightOf suite kdf node,
          if Beekem.twin number % 2 = 0 then SecretTree.leftOf suite kdf node
          else SecretTree.rightOf suite kdf node) := by
      rcases Nat.mod_two_eq_zero_or_one number with even | odd
      · have other : Beekem.twin number % 2 = 1 := by
          unfold Beekem.twin
          omega
        simp [even, other]
      · have other : Beekem.twin number % 2 = 0 := by
          unfold Beekem.twin
          omega
        simp [odd, other]
    rw [next, copath, children]
    dsimp only
    rw [after_bind, insert, after_ok, free, if_neg (by simp),
      show Prefix.maxDepth P - (k + 1) + 1 = Prefix.maxDepth P - k by omega]
    refine ih (by omega) split (Stored.split_below whole rfl) ?_
    rw [stored_update pprf (by omega) twinWithin, rest]
    exact Stored.split_put half (Beekem.twin_ne number) noNext

theorem after_evaluate
    (frontier : Punctured P suite kdf secret (stored pprf) spent) :
    After (evaluate suite (.ofKdf kdf) input pprf)
      (fun value pprf' => ¬ spent (leafOf input) ∧
        value = derived (SecretTree.leftOf suite kdf) (SecretTree.rightOf suite kdf) secret (Prefix.maxDepth P)
          (leafOf input) ∧
        Punctured P suite kdf secret (stored pprf') fun other => spent other ∨ other = leafOf input)
      (fun fault pprf' => spent (leafOf input) ∧ fault = .puncturedInput ∧ pprf' = pprf) := by
  have root : (Prefix.new : P)
      = keyAt (Prefix.maxDepth P) (leafOf input / 2 ^ Prefix.maxDepth P) := by
    rw [keyAt, Nat.sub_self]
    rfl
  have found : After (findNode input _ _ (keyAt _ (leafOf input / 2 ^ Prefix.maxDepth P)) pprf) _ _ :=
    after_findNode length (le_refl (Prefix.maxDepth P)) (fun j above inTree => by omega)
  rw [Nat.sub_self, ← root] at found
  rw [evaluate, if_neg (by omega), after_bind]
  refine found.mono ?_ ?_
  · rintro ⟨node, depth, key⟩ pprf' ⟨j, level, reached, here, removed⟩
    obtain ⟨rfl, rfl⟩ := Prod.mk.inj reached
    dsimp only at here ⊢
    rw [show Prefix.maxDepth P - (Prefix.maxDepth P - j) = j by omega]
    refine (after_walk length level frontier here removed).mono ?_ fun _ _ impossible => impossible.elim
    rintro value pprf'' ⟨isValue, frontier'⟩
    exact ⟨frontier.not_spent (leafOf_lt length) level (by rw [here]; simp), isValue, frontier'⟩
  · rintro fault pprf' ⟨rfl, rfl, empty⟩
    refine ⟨?_, rfl, rfl⟩
    by_contra notSpent
    obtain ⟨j, level, there⟩ := frontier.covered (leafOf_lt length) notSpent
    exact there (empty j level)

end Leaf

/-! ### Sequences of evaluations -/

def evaluated (suite : Ciphersuite) (kdf : Kdf Secret) (secret : Secret) (size : Beekem.TreeSize)
    (inputs : List (List UInt8)) : Pprf P Secret :=
  inputs.foldl (fun pprf input => final (evaluate suite (.ofKdf kdf) input pprf)) (newWithSize secret size)

theorem leafOf_injective {first second : List UInt8} (lengths : first.length = second.length)
    (same : leafOf first = leafOf second) : first = second := by
  refine inputBits_injective lengths (ofBits_injective ?_ same)
  rw [length_inputBits, length_inputBits, lengths]

theorem frontier_evaluated {size : Beekem.TreeSize} {inputs : List (List UInt8)}
    (lengths : ∀ input ∈ inputs, input.length = Prefix.maxInputLen P) :
    Punctured P suite kdf secret (stored (evaluated suite kdf secret size inputs : Pprf P Secret))
      (· ∈ inputs.map leafOf) := by
  induction inputs using List.reverseRecOn with
  | nil =>
    have none : (· ∈ ([] : List (List UInt8)).map leafOf) = fun _ => False := by simp
    rw [none]
    exact frontier_newWithSize P suite kdf secret size
  | append_singleton inputs input ih =>
    have before := ih fun other member => lengths other (List.mem_append_left _ member)
    have spec := after_evaluate (lengths input (by simp)) before
    have spent : (· ∈ (inputs ++ [input]).map leafOf)
        = fun other => other ∈ inputs.map leafOf ∨ other = leafOf input := by simp
    rw [evaluated, List.foldl_append, ← evaluated, List.foldl_cons, List.foldl_nil, spent]
    generalize evaluate suite (.ofKdf kdf) input (evaluated suite kdf secret size inputs : Pprf P Secret)
      = result at spec
    cases result with
    | ok value pprf' => exact spec.2.2
    | error fault pprf' =>
      obtain ⟨again, -, rfl⟩ := spec
      have known : (fun other => other ∈ inputs.map leafOf ∨ other = leafOf input) = (· ∈ inputs.map leafOf) := by
        funext other
        refine propext ⟨?_, .inl⟩
        rintro (member | rfl)
        · exact member
        · exact again
      rw [known]
      exact before

theorem derived_eq_foldl (left right : Secret → Secret) (root : Secret) (bits : List Bool) :
    derived left right root bits.length (Mls.ofBits bits)
      = bits.foldl (fun node bit => if bit then right node else left node) root := by
  induction bits using List.reverseRecOn with
  | nil => rfl
  | append_singleton bits bit ih =>
    rw [List.length_append, List.length_singleton, derived, ofBits_append, List.foldl_append, ← ih]
    cases bit with
    | false => simp
    | true =>
      rw [Bool.toNat_true, if_neg (by omega), show (2 * Mls.ofBits bits + 1) / 2 = Mls.ofBits bits by omega]
      rfl

/-- The value at an input: derived from the root along the bits of the input. -/
def valueAt (suite : Ciphersuite) (kdf : Kdf Secret) (secret : Secret) (input : List UInt8) : Secret :=
  (inputBits input).foldl
    (fun node bit => if bit then SecretTree.rightOf suite kdf node else SecretTree.leftOf suite kdf node) secret

/-- **Every input has its value once.** After any evaluations, an input that was not evaluated has its value, derived
along its bits, and exactly one stored node above its leaf; an input that was evaluated is punctured, has no stored node
above its leaf and changes nothing. No other outcome, such as the failed assertion, is possible. -/
theorem evaluate_punctures (suite : Ciphersuite) (kdf : Kdf Secret) (secret : Secret) (size : Beekem.TreeSize)
    {inputs : List (List UInt8)} (lengths : ∀ input ∈ inputs, input.length = Prefix.maxInputLen P)
    {input : List UInt8} (length : input.length = Prefix.maxInputLen P) :
    (input ∉ inputs →
      (∃ pprf', evaluate suite (.ofKdf kdf) input (evaluated suite kdf secret size inputs : Pprf P Secret)
        = .ok (valueAt suite kdf secret input) pprf') ∧
      ∃! depth, depth ≤ Prefix.maxDepth P ∧
        (evaluated suite kdf secret size inputs : Pprf P Secret).nodes
          (Prefix.ofBits ((inputBits input).take depth)) ≠ none) ∧
    (input ∈ inputs →
      evaluate suite (.ofKdf kdf) input (evaluated suite kdf secret size inputs : Pprf P Secret)
        = .error .puncturedInput (evaluated suite kdf secret size inputs) ∧
      ∀ depth ≤ Prefix.maxDepth P, (evaluated suite kdf secret size inputs : Pprf P Secret).nodes
        (Prefix.ofBits ((inputBits input).take depth)) = none) := by
  have frontier : Punctured P suite kdf secret (stored (evaluated suite kdf secret size inputs : Pprf P Secret)) _ :=
    frontier_evaluated lengths
  have spec := after_evaluate length frontier
  generalize (evaluated suite kdf secret size inputs : Pprf P Secret) = pprf at *
  have leaf := leafOf_lt length
  have value : derived (SecretTree.leftOf suite kdf) (SecretTree.rightOf suite kdf) secret (Prefix.maxDepth P)
      (leafOf input) = valueAt suite kdf secret input := by
    rw [← length_bits length, leafOf, derived_eq_foldl, valueAt]
  have spent : leafOf input ∈ inputs.map leafOf ↔ input ∈ inputs := by
    constructor
    · intro member
      obtain ⟨other, there, same⟩ := List.mem_map.mp member
      rwa [← leafOf_injective ((lengths other there).trans length.symm) same]
    · exact fun member => List.mem_map_of_mem member
  have keys : ∀ depth ≤ Prefix.maxDepth P, pprf.nodes (Prefix.ofBits ((inputBits input).take depth))
      = stored pprf (Prefix.maxDepth P - depth) (leafOf input / 2 ^ (Prefix.maxDepth P - depth)) := by
    intro depth inTree
    rw [stored_path length pprf (by omega), keyAt_path length (by omega),
      show Prefix.maxDepth P - (Prefix.maxDepth P - depth) = depth by omega]
  generalize evaluate suite (.ofKdf kdf) input pprf = result at spec
  refine ⟨fun fresh => ⟨?_, ?_⟩, fun again => ⟨?_, fun depth inTree => ?_⟩⟩
  · cases result with
    | ok found pprf' => exact ⟨pprf', by rw [spec.2.1, value]⟩
    | error fault pprf' => exact absurd (spent.mp spec.1) fresh
  · obtain ⟨k, level, there⟩ := frontier.covered leaf (mt spent.mp fresh)
    refine ⟨Prefix.maxDepth P - k, ⟨by omega, ?_⟩, ?_⟩
    · rwa [keys _ (by omega), show Prefix.maxDepth P - (Prefix.maxDepth P - k) = k by omega]
    · rintro depth ⟨inTree, here⟩
      rw [keys _ inTree] at here
      have := frontier.single leaf (by omega) level here there
      omega
  · cases result with
    | ok found pprf' => exact absurd (spent.mpr again) spec.1
    | error fault pprf' => rw [spec.2.1, spec.2.2]
  · rw [keys depth inTree]
    exact frontier.cleared leaf (spent.mpr again) (by omega)

end Frontiers

namespace Sample

/-- With two bytes as input and a key derivation that adds: an input cannot be evaluated twice. -/
theorem second_evaluation_punctured :
    evaluate ⟨32, 16, 12⟩ (.ofKdf fun secret _ context _ => secret + context.length) [0, 7]
        (evaluated ⟨32, 16, 12⟩ (fun secret _ context _ => secret + context.length) 5 (.ofHeight 16) [[0, 7], [1, 0]]
          : Pprf Prefix16 Nat)
      = .error .puncturedInput
        (evaluated ⟨32, 16, 12⟩ (fun secret _ context _ => secret + context.length) 5 (.ofHeight 16) [[0, 7], [1, 0]]) :=
  ((evaluate_punctures _ _ _ _ (by decide) (by decide)).2 (by decide)).1

end Sample

end Pprf

end KeyhiveEval.Mls
