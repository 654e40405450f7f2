/-
**`treemath.rs`: the array representation of the tree.**

Leaves stand at the even positions of the array and inner nodes at the odd ones. The functions are
those of the source on `u32`s; a shift takes its count modulo 32, as in a release build.

* `directPath` walks from a node to the root of a tree of the given size. The loop of the source
  only stops at that root, and for a node of another tree it never does. The model stops after
  `walkFuel` steps with `Fault.diverge`; that no longer walk would have reached the root is
  `directPathLoop_outside`.
-/

import KeyhiveEval.Beekem.Basic

namespace KeyhiveEval.Beekem

open Std

/-! ### `u32` -/

/-- The number of `u32` values. -/
def u32Size : Nat := 2 ^ 32

def shl (x count : Nat) : Nat := x <<< (count % 32) % u32Size

def shr (x count : Nat) : Nat := x >>> (count % 32)

/-! ### Indices -/

/-- A node of the tree: the leaf, or the inner node, with the given number. -/
inductive TreeNodeIndex
  | leaf (index : Nat)
  | inner (index : Nat)
deriving DecidableEq, Repr

namespace TreeNodeIndex

/-- The position of the node in the array. -/
def position : TreeNodeIndex → Nat
  | leaf index => index * 2
  | inner index => index * 2 + 1

/-- The position of the node in the array, as the `u32` that the source computes. -/
def u32 (node : TreeNodeIndex) : Nat := node.position % u32Size

/-- The node at a position of the array. -/
def new (index : Nat) : TreeNodeIndex :=
  if index % 2 = 0 then leaf (index / 2) else inner ((index - 1) / 2)

theorem position_injective : Function.Injective position := by
  intro first second same
  cases first <;> cases second <;> simp only [position] at same <;>
    first | exact congrArg _ (by omega) | omega

instance : Ord TreeNodeIndex := ⟨fun first second => compare first.position second.position⟩

theorem compare_def (first second : TreeNodeIndex) :
    compare first second = compare first.position second.position := rfl

instance : TransOrd TreeNodeIndex where
  eq_swap {a b} := by
    rw [compare_def, compare_def]
    exact OrientedCmp.eq_swap
  isLE_trans {a b c} := by
    rw [compare_def, compare_def, compare_def]
    exact TransCmp.isLE_trans

instance : LawfulEqOrd TreeNodeIndex where
  compare_self {a} := by
    rw [compare_def]
    exact ReflCmp.compare_self
  eq_of_compare {a b} equal := by
    rw [compare_def] at equal
    exact position_injective (LawfulEqCmp.eq_of_compare equal)

end TreeNodeIndex

/-! ### Sizes -/

structure TreeSize where
  nodes : Nat
deriving DecidableEq, Repr

/-- `log2` of the source on the arguments below `2 ^ 31`, where its loop ends. -/
def log2 (x : Nat) : Nat := Nat.log2 x

namespace TreeSize

/-- The smallest tree that holds `nodes` nodes. From `2 ^ 31` on the loop of `log2` shifts by 32,
that is, not at all, and never ends. -/
def new (nodes : Nat) : Res TreeSize :=
  if nodes < 2 ^ 31 then .ok ⟨2 ^ (log2 nodes + 1) - 1⟩ else .error .diverge

def fromLeafCount (leafCount : Nat) : Res TreeSize := new (leafCount * 2 % u32Size)

def leafCount (size : TreeSize) : Nat := size.nodes / 2 + 1

def innerNodeCount (size : TreeSize) : Nat := size.nodes / 2

def inc (size : TreeSize) : TreeSize := ⟨size.nodes * 2 + 1⟩

end TreeSize

/-! ### Parents and children -/

/-- The number of trailing ones of `x`, looking at `fuel` bits. -/
def trailingOnes : Nat → Nat → Nat
  | 0, _ => 0
  | fuel + 1, x => if x % 2 = 0 then 0 else trailingOnes fuel (x / 2) + 1

/-- The height of the node at a position of the array. -/
def level (index : Nat) : Nat := trailingOnes 32 index

def root (size : TreeSize) : TreeNodeIndex := .new (2 ^ log2 size.nodes - 1)

def left (index : Nat) : TreeNodeIndex :=
  let x := (TreeNodeIndex.inner index).u32
  .new (x ^^^ shl 1 (level x - 1))

def right (index : Nat) : TreeNodeIndex :=
  let x := (TreeNodeIndex.inner index).u32
  .new (x ^^^ shl 3 (level x - 1))

/-- The parent of a node, beyond the root too. -/
def parent (node : TreeNodeIndex) : Nat :=
  let x := node.u32
  let k := level x
  let b := shr x (k + 1) &&& 1
  let index := (x ||| shl 1 k) ^^^ shl b (k + 1)
  (index - 1) / 2

def sibling (node : TreeNodeIndex) : TreeNodeIndex :=
  let p := parent node
  if node.u32 < (TreeNodeIndex.inner p).u32 then right p else left p

/-! ### Paths -/

/-- More steps than any walk from a node to the root of its tree takes. -/
def walkFuel : Nat := 33

/-- The loop of `directPath`: from the position `x` up to the position `r`. -/
def directPathLoop (r : Nat) : Nat → Nat → List Nat → Res (List Nat)
  | 0, _, _ => .error .diverge
  | fuel + 1, x, d =>
    if x = r then .ok d
    else
      let up := parent (.new x)
      directPathLoop r fuel (TreeNodeIndex.inner up).u32 (d ++ [up])

/-- The inner nodes from a node, which is left out, to the root. -/
def directPath (node : TreeNodeIndex) (size : TreeSize) : Res (List Nat) :=
  directPathLoop (root size).u32 walkFuel node.u32 []

def commonAncestorLoop : Nat → Nat → Nat → Nat → Nat × Nat
  | 0, xn, _, k => (xn, k)
  | fuel + 1, xn, yn, k =>
    if xn = yn then (xn, k) else commonAncestorLoop fuel (xn >>> 1) (yn >>> 1) (k + 1)

/-- The node where the paths of two leaves meet. -/
def lowestCommonAncestor (first second : Nat) : Nat :=
  let x := (TreeNodeIndex.leaf first).u32
  let y := (TreeNodeIndex.leaf second).u32
  let lx := level x + 1
  let ly := level y + 1
  if lx ≤ ly ∧ shr x ly = shr y ly then (y - 1) / 2
  else if ly ≤ lx ∧ shr x lx = shr y lx then (x - 1) / 2
  else
    let (xn, k) := commonAncestorLoop 32 x y 0
    (shl xn k + shl 1 (k - 1) - 1 - 1) / 2

end KeyhiveEval.Beekem
