/-
**`individual.rs`: the prekey that an individual uses for a document.**

The index is drawn from the hash of the two identities: eight bytes are read, shifted so that only as many bits are left
as the number of prekeys has, and taken if they are not above that number. On a little-endian machine with 64 bits the
bits are shifted to the upper end and the bytes are swapped then.

* `accepts_iff` — the indices that can come out: those with no bit below the shift once their bytes are swapped. The
  number of the prekeys itself is one of them for 16 prekeys, and for none below.
* `Individual.pickPrekey_iff` — no call panics exactly if the number of the prekeys cannot come out, and two replicas of an
  individual always pick the same key exactly if their sets are walked in the same order as far as an index can reach.
-/

import KeyhiveEval.Core.Prekeys

namespace KeyhiveEval.Core

open Std Beekem

/-! ### Drawing an index -/

/-- The output of the hash for a seed, eight bytes at a time. -/
abbrev Xof := List UInt8 → Nat → BitVec 64

/-- `usize::from_be`, on a little-endian machine. -/
def swapBytes (word : BitVec 64) : BitVec 64 :=
  BitVec.ofFnLE fun i => word.getLsbD (8 * (7 - i / 8) + i % 8)

def clamp (word : BitVec 64) (offsetBits : Nat) : Nat :=
  let bound := if offsetBits < 64 then word <<< offsetBits else 0
  (swapBytes bound).toNat

def drawLoop (stream : Nat → BitVec 64) (max shiftsize : Nat) : Nat → Nat → Option Nat
  | 0, _ => none
  | fuel + 1, position =>
    let rawIdx := clamp (stream position) shiftsize
    if rawIdx ≤ max then some rawIdx else drawLoop stream max shiftsize fuel (position + 1)

/-- An index, drawn from the hash of a seed. It is nothing when the fuel does not suffice. -/
def pseudorandomInRange (xof : Xof) (fuel : Nat) (seed : List UInt8) (max : Nat) : Option Nat :=
  drawLoop (xof seed) max (64 - Nat.log2 max) fuel 0

/-- The order in which a hash set of keys is walked. -/
structure PrekeyOrder where
  list : List ShareKey → List ShareKey
  list_perm : ∀ keys, (list keys).Perm keys

def idBytes (id : Identifier) : List UInt8 := TreeId.asBytes ⟨id.raw⟩

section

variable {hash : KeyOp → KeyOpDigest}

/-- The prekeys of an individual, one after the other. -/
def Individual.walk (individual : Individual hash) (order : PrekeyOrder) : List ShareKey :=
  order.list individual.prekeys.toList

def Individual.pickPrekey (xof : Xof) (fuel : Nat) (order : PrekeyOrder) (individual : Individual hash)
    (docId : Identifier) : Res ShareKey :=
  match pseudorandomInRange xof fuel (idBytes individual.id ++ idBytes docId) individual.prekeys.size with
  | none => .error .diverge
  | some idx =>
    match (individual.walk order)[idx]? with
    | some key => .ok key
    | none => .error (.panic "index to be in range")

end

/-! ### What can come out -/

theorem getLsbD_swapBytes {i : Nat} (word : BitVec 64) (bound : i < 64) :
    (swapBytes word).getLsbD i = word.getLsbD (8 * (7 - i / 8) + i % 8) := by
  rw [swapBytes, BitVec.getLsbD_ofFnLE, dif_pos bound]

theorem swapBytes_swapBytes (word : BitVec 64) : swapBytes (swapBytes word) = word := by
  refine BitVec.eq_of_getLsbD_eq fun i bound => ?_
  rw [getLsbD_swapBytes _ bound, getLsbD_swapBytes _ (by omega)]
  congr 1
  omega

/-- An index that some bytes of the hash give. -/
def Accepts (max idx : Nat) : Prop := idx ≤ max ∧ ∃ word, clamp word (64 - Nat.log2 max) = idx

/-- A shift clears the lower bits, and nothing else comes out of it. -/
theorem exists_shift_iff {shift : Nat} {word : BitVec 64} :
    (∃ start : BitVec 64, (if shift < 64 then start <<< shift else 0) = word) ↔
      ∀ i < shift, word.getLsbD i = false := by
  constructor
  · rintro ⟨start, rfl⟩ i low
    split
    · simp [BitVec.getLsbD_shiftLeft, low]
    · simp
  · intro clear
    refine ⟨word >>> shift, BitVec.eq_of_getLsbD_eq fun i bound => ?_⟩
    by_cases low : i < shift
    · rw [clear i low]
      split
      · simp [BitVec.getLsbD_shiftLeft, low]
      · simp
    · rw [if_pos (by omega), BitVec.getLsbD_shiftLeft, BitVec.getLsbD_ushiftRight,
        show shift + (i - shift) = i by omega]
      simp [bound, low]

theorem accepts_iff {max idx : Nat} : Accepts max idx ↔
    idx ≤ max ∧ idx < 2 ^ 64 ∧ ∀ i < 64 - Nat.log2 max, (swapBytes (BitVec.ofNat 64 idx)).getLsbD i = false := by
  refine and_congr_right fun _ => ?_
  rw [← exists_shift_iff]
  constructor
  · rintro ⟨word, rfl⟩
    refine ⟨(swapBytes _).isLt, word, ?_⟩
    rw [clamp, BitVec.ofNat_toNat, BitVec.setWidth_eq, swapBytes_swapBytes]
  · rintro ⟨small, word, shifted⟩
    refine ⟨word, ?_⟩
    rw [clamp, shifted, swapBytes_swapBytes, BitVec.toNat_ofNat, Nat.mod_eq_of_lt small]

instance (max idx : Nat) : Decidable (Accepts max idx) := decidable_of_iff _ accepts_iff.symm

-- Of the numbers up to 16, only 16 comes out itself.
example : Accepts 16 16 ∧ ∀ count < 16, 0 < count → ¬ Accepts count count := by decide +kernel

theorem drawLoop_accepts {stream : Nat → BitVec 64} {max fuel position idx : Nat}
    (drawn : drawLoop stream max (64 - Nat.log2 max) fuel position = some idx) : Accepts max idx := by
  induction fuel generalizing position with
  | zero => cases drawn
  | succ fuel ih =>
    simp only [drawLoop] at drawn
    split at drawn
    · rename_i within
      obtain rfl := Option.some.inj drawn
      exact ⟨within, _, rfl⟩
    · exact ih drawn

/-- Every accepted index comes out of the first eight bytes of some hash. -/
theorem Accepts.exists_xof {max idx : Nat} (accepts : Accepts max idx) :
    ∃ xof : Xof, ∀ seed, pseudorandomInRange xof 1 seed max = some idx := by
  obtain ⟨within, word, clamped⟩ := accepts
  refine ⟨fun _ _ => word, fun seed => ?_⟩
  rw [pseudorandomInRange, drawLoop, clamped]
  exact if_pos within

/-! ### Picking a prekey -/

namespace Individual

variable {hash : KeyOp → KeyOpDigest} {individual other : Individual hash} {xof : Xof} {fuel : Nat}
  {docId : Identifier}

theorem length_walk (order : PrekeyOrder) : (individual.walk order).length = individual.prekeys.size := by
  rw [walk, (order.list_perm _).length_eq, ExtTreeSet.length_toList]

theorem mem_walk {order : PrekeyOrder} {key : ShareKey} : key ∈ individual.walk order ↔ key ∈ individual.prekeys := by
  rw [walk, (order.list_perm _).mem_iff, ExtTreeSet.mem_toList]

theorem pickPrekey_of_accepts {idx : Nat} {docId : Identifier} (order : PrekeyOrder)
    (drawn : pseudorandomInRange xof fuel (idBytes individual.id ++ idBytes docId) individual.prekeys.size = some idx) :
    individual.pickPrekey xof fuel order docId = match (individual.walk order)[idx]? with
      | some key => .ok key
      | none => .error (.panic "index to be in range") := by
  rw [pickPrekey, drawn]

/-- **Which prekey is picked.** A key that is picked is one of the prekeys. No call panics exactly if the number of the
prekeys is not accepted as an index, and two replicas agree on every document and for every hash exactly if they walk
their prekeys in one order, as far as the accepted indices go. -/
theorem pickPrekey_iff (order order' : PrekeyOrder) (sameId : individual.id = other.id)
    (samePrekeys : individual.prekeys = other.prekeys) :
    (∀ xof fuel docId key, individual.pickPrekey xof fuel order docId = .ok key → key ∈ individual.prekeys) ∧
      ((∀ xof fuel docId message, individual.pickPrekey xof fuel order docId ≠ .error (.panic message)) ↔
        ¬ Accepts individual.prekeys.size individual.prekeys.size) ∧
      ((∀ xof fuel docId, individual.pickPrekey xof fuel order docId = other.pickPrekey xof fuel order' docId) ↔
        ∀ idx, Accepts individual.prekeys.size idx → (individual.walk order)[idx]? = (other.walk order')[idx]?) := by
  refine ⟨fun xof fuel docId key picked => ?_, ⟨fun safe accepts => ?_, fun refused xof fuel docId message panics => ?_⟩,
    fun agree idx accepts => ?_, fun agree xof fuel docId => ?_⟩
  · unfold pickPrekey at picked
    split at picked
    · cases picked
    · split at picked
      · rename_i found
        obtain rfl := Except.ok.inj picked
        exact mem_walk.mp (List.mem_of_getElem? found)
      · cases picked
  · obtain ⟨xof, draws⟩ := accepts.exists_xof
    refine safe xof 1 ⟨0⟩ "index to be in range" ?_
    rw [pickPrekey_of_accepts order (draws _), List.getElem?_eq_none (length_walk order).le]
  · unfold pickPrekey at panics
    split at panics
    · cases panics
    · rename_i idx drawn
      split at panics
      · cases panics
      · rename_i outside
        have accepts := drawLoop_accepts drawn
        have beyond := List.getElem?_eq_none_iff.mp outside
        rw [length_walk] at beyond
        obtain rfl : idx = individual.prekeys.size := Nat.le_antisymm accepts.1 beyond
        exact refused accepts
  · obtain ⟨xof, draws⟩ := accepts.exists_xof
    have same := agree xof 1 ⟨0⟩
    rw [pickPrekey_of_accepts order (draws _), pickPrekey_of_accepts order' (by rw [← samePrekeys]; exact draws _)]
      at same
    cases here : (individual.walk order)[idx]? <;> cases there : (other.walk order')[idx]? <;>
      simp_all
  · unfold pickPrekey
    rw [← sameId, ← samePrekeys]
    cases drawn : pseudorandomInRange xof fuel (idBytes individual.id ++ idBytes docId) individual.prekeys.size with
    | none => rfl
    | some idx =>
      simp only
      rw [agree idx (drawLoop_accepts drawn)]

namespace Sample

open KeyOp.Sample

def holder (count : Nat) : Except ReceivePrekeyOpError (Individual KeyOp.Sample.hash) :=
  (List.range (count - 1)).foldlM
    (fun holder n => holder.receivePrekeyOp (fun _ => true) .sorted (adds (n + 2) (n + 2))) (.new .sorted (adds 1 1))

def sorted : PrekeyOrder := ⟨fun keys => keys, List.Perm.refl⟩

def reversed : PrekeyOrder := ⟨List.reverse, List.reverse_perm⟩

/-- The first key first, the others from the end. -/
def turned : PrekeyOrder where
  list keys := keys.take 1 ++ (keys.drop 1).reverse
  list_perm keys := ((List.reverse_perm _).append_left _).trans (by rw [List.take_append_drop])

/-- With three prekeys only the first is ever picked. -/
theorem three_prekeys_agree : ∃ three, holder 3 = .ok three ∧ three.walk sorted ≠ three.walk turned ∧
    (∀ xof fuel docId message, three.pickPrekey xof fuel sorted docId ≠ .error (.panic message)) ∧
    ∀ xof fuel docId, three.pickPrekey xof fuel sorted docId = three.pickPrekey xof fuel turned docId := by
  have walks : (holder 3).map (fun three => (three.walk sorted, three.walk turned))
      = .ok ([key 1, key 2, key 3], [key 1, key 3, key 2]) := by decide +kernel
  cases made : holder 3 with
  | error error =>
    rw [made] at walks
    cases walks
  | ok three =>
    rw [made] at walks
    obtain ⟨first, second⟩ := Prod.mk.inj (Except.ok.inj walks)
    have size : three.prekeys.size = 3 := by rw [← length_walk sorted, first]; rfl
    obtain ⟨-, safe, agree⟩ := @pickPrekey_iff _ three three sorted turned rfl rfl
    refine ⟨three, rfl, by rw [first, second]; decide, safe.mpr ?_, agree.mpr fun idx accepts => ?_⟩
    · rw [size]
      decide +kernel
    · have only : ∀ idx < 4, Accepts 3 idx → idx = 0 := by decide +kernel
      rw [size] at accepts
      obtain rfl := only idx (Nat.lt_succ_of_le accepts.1) accepts
      rw [first, second]
      rfl

/-- **Sixteen prekeys, and a hash of which only the last bit is set**: the index 16 is drawn. And two replicas that walk
their two prekeys in different orders pick different keys. -/
theorem sixteen_prekeys_panic :
    (holder 16).map (fun sixteen => (sixteen.prekeys.size, sixteen.pickPrekey (fun _ _ => 1) 1 sorted ⟨0⟩))
        = .ok (16, .error (.panic "index to be in range")) ∧
      (holder 2).map (fun two => (two.pickPrekey (fun _ _ => 0) 1 sorted ⟨0⟩,
        two.pickPrekey (fun _ _ => 0) 1 reversed ⟨0⟩)) = .ok (.ok (key 1), .ok (key 2)) := by
  decide +kernel

end Sample

end Individual

end KeyhiveEval.Core
