/-
**The ratchet of another member serves each generation once.**

After any requests the queue of a `DecryptionRatchet` is a window of the generations below the head, the latest first:
the slot of a generation is empty if its key was given out and holds the key otherwise.

* `window` — the queue that belongs to a head and to the generations that were given out.
* `after_secretForDecryption` — what one request does; `serve_eq` — what is left by all of them.
* `secretForDecryption_serves` — which requests are answered, and with what.

The crypto provider is one that never fails: a failure in the middle of a skip leaves a queue that was not pruned.
-/

import KeyhiveEval.Mls.SenderRatchet

namespace KeyhiveEval.Mls

open Stateful

variable {Secret : Type}
  (suite : Ciphersuite) (kdf : Kdf Secret) (configuration : SenderRatchetConfiguration) (secret : Secret)

/-! ### The chain -/

def chain : Nat → Secret
  | 0 => secret
  | generation + 1 => kdf (chain generation) "secret" (toBeBytes generation) suite.hashLength

/-- The key and the nonce of each generation. -/
def keyMaterial (generation : Nat) : RatchetKeyMaterial Secret :=
  (kdf (chain suite kdf secret generation) "key" (toBeBytes generation) suite.aeadKeyLength,
    kdf (chain suite kdf secret generation) "nonce" (toBeBytes generation) suite.aeadNonceLength)

/-- The head of a ratchet at a generation. -/
def headAt (generation : Nat) : RatchetSecret Secret := ⟨chain suite kdf secret generation, generation⟩

/-- The encryption ratchet after some calls of `ratchetForward`. -/
def encryptionRatchet (calls : Nat) : RatchetSecret Secret :=
  (fun ratchet => final (RatchetSecret.ratchetForward suite (.ofKdf kdf) ratchet))^[calls]
    (.initialRatchetSecret secret)

variable {suite kdf configuration secret} {generation : Nat}

theorem ratchetForward_headAt (below : generation < u32Max) :
    RatchetSecret.ratchetForward suite (.ofKdf kdf) (headAt suite kdf secret generation)
      = .ok (generation, keyMaterial suite kdf secret generation) (headAt suite kdf secret (generation + 1)) := by
  have notLast : ¬ (headAt suite kdf secret generation).generation = u32Max := Nat.ne_of_lt below
  unfold RatchetSecret.ratchetForward
  simp only [bind, EStateM.bind, get, getThe, MonadStateOf.get, EStateM.get, notLast, if_false]
  rfl

theorem encryptionRatchet_eq (below : generation ≤ u32Max) :
    encryptionRatchet suite kdf secret generation = headAt suite kdf secret generation := by
  induction generation with
  | zero => rfl
  | succ generation ih =>
    rw [encryptionRatchet, Function.iterate_succ_apply', ← encryptionRatchet, ih (by omega),
      ratchetForward_headAt (by omega)]
    rfl

/-! ### The window -/

section Window

variable {α : Type}

def slot (material : Nat → α) (returned : List Nat) (generation : Nat) : Option α :=
  if generation ∈ returned then none else some (material generation)

/-- The slots of the generations below a head, the latest first. -/
def window (material : Nat → α) (tolerance head : Nat) (returned : List Nat) : List (Option α) :=
  ((List.range head).reverse.map (slot material returned)).take tolerance

variable {material : Nat → α} {tolerance head : Nat} {returned : List Nat}

theorem length_window : (window material tolerance head returned).length = min tolerance head := by
  rw [window, List.length_take, List.length_map, List.length_reverse, List.length_range]

theorem getElem?_window {index : Nat} (inWindow : index < tolerance) (exists_ : index < head) :
    (window material tolerance head returned)[index]? = some (slot material returned (head - 1 - index)) := by
  rw [window, List.getElem?_take_of_lt inWindow, List.getElem?_map,
    List.getElem?_reverse (by rw [List.length_range]; exact exists_), List.length_range,
    List.getElem?_range (by omega), Option.map_some]

theorem window_take (past : generation < head) (near : head - generation ≤ tolerance) :
    (window material tolerance head returned).set (head - generation - 1) none
      = window material tolerance head (generation :: returned) := by
  refine List.ext_getElem? fun index => ?_
  rw [List.getElem?_set, length_window]
  by_cases inWindow : index < tolerance ∧ index < head
  · rw [getElem?_window inWindow.1 inWindow.2, getElem?_window inWindow.1 inWindow.2]
    split
    · rename_i here
      rw [if_pos (by omega), slot, if_pos (by rw [show head - 1 - index = generation by omega]; exact List.mem_cons_self)]
    · have other : head - 1 - index ≠ generation := by omega
      simp [slot, other]
  · have beyond : ∀ returned : List Nat, (window material tolerance head returned)[index]? = none := fun returned =>
      List.getElem?_eq_none (by rw [length_window]; omega)
    rw [beyond, beyond, if_neg (by omega)]

theorem window_of_mem (again : generation ∈ returned) :
    window material tolerance head (generation :: returned) = window material tolerance head returned := by
  unfold window
  congr 2
  funext other
  unfold slot
  by_cases same : other = generation
  · subst same
    rw [if_pos List.mem_cons_self, if_pos again]
  · simp [same]

/-- To go forward to a generation and give it out. -/
theorem window_forward (ahead : head ≤ generation) (past : ∀ old ∈ returned, old < head) :
    (none :: (((List.range' head (generation - head)).map fun skipped => some (material skipped)).reverse
        ++ window material tolerance head returned)).take tolerance
      = window material tolerance (generation + 1) (generation :: returned) := by
  have split : List.range (generation + 1)
      = List.range head ++ List.range' head (generation - head) ++ [generation] := by
    have joined : List.range' 0 head ++ List.range' (0 + head) (generation - head) = _ := List.range'_append_1
    rw [Nat.zero_add, Nat.add_sub_cancel' ahead] at joined
    rw [List.range_succ, List.range_eq_range', List.range_eq_range', joined]
  have given : slot material (generation :: returned) generation = none := if_pos List.mem_cons_self
  have skippedSlots : (List.range' head (generation - head)).map (slot material (generation :: returned))
      = (List.range' head (generation - head)).map fun skipped => some (material skipped) := by
    refine List.map_congr_left fun skipped member => if_neg ?_
    rw [List.mem_range'_1] at member
    rw [List.mem_cons]
    rintro (rfl | old)
    · omega
    · have := past skipped old
      omega
  have oldSlots : (List.range head).reverse.map (slot material (generation :: returned))
      = (List.range head).reverse.map (slot material returned) := by
    refine List.map_congr_left fun old member => ?_
    rw [List.mem_reverse, List.mem_range] at member
    have other : old ≠ generation := by omega
    simp [slot, other]
  conv_rhs => rw [window, split, List.reverse_append, List.reverse_append, List.map_append, List.map_append,
    List.reverse_singleton, List.map_singleton, given, List.map_reverse, skippedSlots, oldSlots,
    List.singleton_append]
  cases tolerance with
  | zero => rfl
  | succ tolerance =>
    rw [window, List.take_succ_cons, List.take_succ_cons, List.take_append, List.take_append, List.take_take]
    congr 3
    omega

end Window

/-! ### Requests -/

namespace DecryptionRatchet

variable (suite kdf configuration secret)

/-- The ratchet, and the generations that were given out, after a request. -/
def request (state : DecryptionRatchet Secret × List Nat) (generation : Nat) :
    DecryptionRatchet Secret × List Nat :=
  match secretForDecryption suite (.ofKdf kdf) generation configuration state.1 with
  | .ok _ ratchet => (ratchet, generation :: state.2)
  | .error _ ratchet => (ratchet, state.2)

/-- The ratchet, and the generations that were given out, after some requests. -/
def serve (requests : List Nat) : DecryptionRatchet Secret × List Nat :=
  requests.foldl (request suite kdf configuration) (new secret, [])

/-- The ratchet with a head, from which some generations were given out. -/
def ratchetAt (head : Nat) (returned : List Nat) : DecryptionRatchet Secret :=
  ⟨window (keyMaterial suite kdf secret) configuration.outOfOrderTolerance head returned, headAt suite kdf secret head⟩

def Answered (head : Nat) (returned : List Nat) (generation : Nat) : Prop :=
  generation ≤ head + configuration.maximumForwardDistance ∧
    head ≤ generation + configuration.outOfOrderTolerance ∧ generation ∉ returned

variable {suite kdf configuration secret} {returned : List Nat}

theorem forwardHead_eq {head : Nat} {past : List (Option (RatchetKeyMaterial Secret))} (below : head < u32Max) :
    forwardHead suite (.ofKdf kdf) ⟨past, headAt suite kdf secret head⟩
      = .ok (keyMaterial suite kdf secret head) ⟨past, headAt suite kdf secret (head + 1)⟩ := by
  unfold forwardHead
  simp only [ratchetForward_headAt below]

theorem skip_eq {head count : Nat} {past : List (Option (RatchetKeyMaterial Secret))}
    (below : head + count ≤ u32Max) :
    skip suite (.ofKdf kdf) count ⟨past, headAt suite kdf secret head⟩
      = .ok ⟨⟩ ⟨((List.range' head count).map fun skipped => some (keyMaterial suite kdf secret skipped)).reverse
          ++ past, headAt suite kdf secret (head + count)⟩ := by
  induction count generalizing head past with
  | zero => rfl
  | succ count ih =>
    have step : skip suite (.ofKdf kdf) (count + 1) ⟨past, headAt suite kdf secret head⟩
        = skip suite (.ofKdf kdf) count
          ⟨some (keyMaterial suite kdf secret head) :: past, headAt suite kdf secret (head + 1)⟩ := by
      rw [skip]
      simp only [bind, EStateM.bind, forwardHead_eq (show head < u32Max by omega)]
      rfl
    rw [step, ih (by omega), List.range'_succ, List.map_cons, List.reverse_cons, List.append_assoc,
      List.singleton_append, show head + 1 + count = head + (count + 1) by omega]

/-- **What a request does.** It is answered with the key of its generation, or it leaves the ratchet as it is. -/
theorem after_secretForDecryption {head : Nat} (tolerance : configuration.outOfOrderTolerance < 2 ^ 31)
    (below : generation < u32Max)
    (past : ∀ old ∈ returned, old < head) :
    After (secretForDecryption suite (.ofKdf kdf) generation configuration
        (ratchetAt suite kdf configuration secret head returned))
      (fun material ratchet => Answered configuration head returned generation ∧
        material = keyMaterial suite kdf secret generation ∧
        ratchet = ratchetAt suite kdf configuration secret (max head (generation + 1)) (generation :: returned))
      (fun _ ratchet => ¬ Answered configuration head returned generation ∧
        ratchet = ratchetAt suite kdf configuration secret head returned) := by
  have here : (ratchetAt suite kdf configuration secret head returned).generation = head := rfl
  unfold Answered
  rw [secretForDecryption, after_bind, after_get, here, after_ite]
  refine ⟨fun far => ?_, fun near => ?_⟩
  · refine ⟨by omega, rfl⟩
  · rw [after_ite]
    refine ⟨fun far => ⟨by omega, rfl⟩, fun near' => ?_⟩
    rw [after_ite]
    refine ⟨fun ahead => ?_, fun behind => ?_⟩
    · have fresh : generation ∉ returned := fun old => by
        have := past _ old
        omega
      have reached : head + (generation - head) = generation := by omega
      rw [after_bind, ratchetAt, skip_eq (by omega), after_ok, reached, after_bind, forwardHead_eq below, after_ok,
        after_bind, pushFront, after_modify, after_bind, prunePastSecrets, after_modify, after_pure,
        window_forward ahead past, max_eq_right (by omega)]
      exact ⟨⟨by omega, by omega, fresh⟩, rfl, rfl⟩
    · rw [after_ite]
      refine ⟨fun fits => ?_, fun wraps => by omega⟩
      rw [takePast, after_bind, after_get, ratchetAt, getElem?_window (by omega) (by omega),
        show head - 1 - (head - generation - 1) = generation by omega, slot]
      dsimp only
      rw [after_bind, after_set, window_take (by omega) (by omega)]
      by_cases again : generation ∈ returned
      · rw [if_pos again, window_of_mem again]
        exact ⟨fun answered => answered.2.2 again, rfl⟩
      · rw [if_neg again, max_eq_left (by omega)]
        exact ⟨⟨by omega, by omega, again⟩, rfl, rfl⟩

/-- **After any requests** the ratchet is determined by its head and by the generations that were given out, all of
which are below the head. -/
theorem serve_eq (tolerance : configuration.outOfOrderTolerance < 2 ^ 31) {requests : List Nat}
    (below : ∀ generation ∈ requests, generation < u32Max) :
    ∃ head returned, serve suite kdf configuration secret requests
        = (ratchetAt suite kdf configuration secret head returned, returned) ∧ ∀ old ∈ returned, old < head := by
  induction requests using List.reverseRecOn with
  | nil =>
    refine ⟨0, [], ?_, by simp⟩
    simp [serve, new, ratchetAt, window, headAt, chain, RatchetSecret.initialRatchetSecret]
  | append_singleton requests generation ih =>
    obtain ⟨head, returned, served, past⟩ := ih fun old member => below old (List.mem_append_left _ member)
    have spec : After (secretForDecryption suite (.ofKdf kdf) generation configuration
        (ratchetAt suite kdf configuration secret head returned)) _ _ :=
      after_secretForDecryption tolerance (below generation (by simp)) past
    rw [serve, List.foldl_append, ← serve, served, List.foldl_cons, List.foldl_nil, request]
    dsimp only
    generalize secretForDecryption suite (.ofKdf kdf) generation configuration
      (ratchetAt suite kdf configuration secret head returned) = result at spec
    cases result with
    | ok material ratchet =>
      obtain ⟨-, -, rfl⟩ := spec
      refine ⟨_, _, rfl, fun old member => ?_⟩
      rcases List.mem_cons.mp member with rfl | member
      · omega
      · have := past old member
        omega
    | error error ratchet =>
      obtain ⟨-, rfl⟩ := spec
      exact ⟨head, returned, rfl, past⟩

/-- **The ratchet serves each generation once and agrees with the sender.** After any requests, the queue is within the
tolerance and holds only keys of generations that were not given out; the next request is answered exactly if it is
near enough to the head and its generation was not given out; and the answer is what the encryption ratchet of the
sender gives at that generation. -/
theorem secretForDecryption_serves (tolerance : configuration.outOfOrderTolerance < 2 ^ 31) {requests : List Nat}
    (below : ∀ generation ∈ requests, generation < u32Max) {ratchet : DecryptionRatchet Secret} {returned : List Nat}
    (served : serve suite kdf configuration secret requests = (ratchet, returned)) :
    ratchet.pastSecrets.length ≤ configuration.outOfOrderTolerance ∧
      (∀ (index : Nat) (material : RatchetKeyMaterial Secret), ratchet.pastSecrets[index]? = some (some material) →
        index < ratchet.generation ∧ ratchet.generation - 1 - index ∉ returned ∧
          material = keyMaterial suite kdf secret (ratchet.generation - 1 - index)) ∧
      ∀ generation < u32Max,
        ((∃ material ratchet', secretForDecryption suite (.ofKdf kdf) generation configuration ratchet
            = .ok material ratchet') ↔
          generation ≤ ratchet.generation + configuration.maximumForwardDistance ∧
            ratchet.generation ≤ generation + configuration.outOfOrderTolerance ∧ generation ∉ returned) ∧
        ∀ material ratchet', secretForDecryption suite (.ofKdf kdf) generation configuration ratchet
            = .ok material ratchet' →
          ∃ next, RatchetSecret.ratchetForward suite (.ofKdf kdf) (encryptionRatchet suite kdf secret generation)
            = .ok (generation, material) next := by
  obtain ⟨head, returned', same, past⟩ := serve_eq tolerance below
  obtain ⟨rfl, rfl⟩ := Prod.mk.inj (served.symm.trans same)
  have here : (ratchetAt suite kdf configuration secret head returned).generation = head := rfl
  have size : (ratchetAt suite kdf configuration secret head returned).pastSecrets.length = min _ head := length_window
  rw [here]
  refine ⟨?_, fun index material found => ?_, fun generation small => ?_⟩
  · rw [size]
    exact Nat.min_le_left _ _
  · have inWindow := (List.getElem?_eq_some_iff.mp found).1
    rw [size] at inWindow
    rw [ratchetAt, getElem?_window (by omega) (by omega), slot] at found
    split at found
    · simp at found
    · rename_i fresh
      exact ⟨by omega, fresh, (Option.some.inj (Option.some.inj found)).symm⟩
  · have spec : After (secretForDecryption suite (.ofKdf kdf) generation configuration
        (ratchetAt suite kdf configuration secret head returned)) _ _ := after_secretForDecryption tolerance small past
    generalize secretForDecryption suite (.ofKdf kdf) generation configuration
      (ratchetAt suite kdf configuration secret head returned) = result at spec
    cases result with
    | ok material ratchet =>
      obtain ⟨answered, rfl, -⟩ := spec
      refine ⟨⟨fun _ => answered, fun _ => ⟨_, _, rfl⟩⟩, fun material' ratchet' returns => ?_⟩
      obtain ⟨rfl, -⟩ := EStateM.Result.ok.inj returns
      rw [encryptionRatchet_eq small.le]
      exact ⟨_, ratchetForward_headAt small⟩
    | error error ratchet =>
      exact ⟨⟨fun ⟨_, _, returns⟩ => by simp at returns, fun answered => absurd answered spec.1⟩,
        fun _ _ returns => by simp at returns⟩

namespace Sample

/-- The ratchet of the secret 0 after the requests 2 and 0, where a key is the secret plus its length. -/
def served : DecryptionRatchet Nat × List Nat :=
  serve ⟨32, 16, 12⟩ (fun secret _ _ length => secret + length) ⟨5, 1000⟩ 0 [2, 0]

/-- The generation that was skipped is still to be had, and the one that was given out is not. -/
theorem skipped_generation_served :
    (∃ material ratchet', secretForDecryption ⟨32, 16, 12⟩ (.ofKdf fun secret _ _ length => secret + length) 1
        ⟨5, 1000⟩ served.1 = .ok material ratchet') ∧
      ¬ ∃ material ratchet', secretForDecryption ⟨32, 16, 12⟩ (.ofKdf fun secret _ _ length => secret + length) 0
        ⟨5, 1000⟩ served.1 = .ok material ratchet' := by
  have tolerance : (⟨5, 1000⟩ : SenderRatchetConfiguration).outOfOrderTolerance < 2 ^ 31 := by decide
  have below : ∀ generation ∈ [2, 0], generation < u32Max := by decide
  have run : serve ⟨32, 16, 12⟩ (fun secret _ _ length => secret + length) ⟨5, 1000⟩ 0 [2, 0]
      = (served.1, served.2) := rfl
  have answers := (secretForDecryption_serves tolerance below run).2.2
  have head : served.1.generation = 3 := by decide
  have returned : served.2 = [0, 2] := by decide
  rw [head, returned] at answers
  refine ⟨(answers 1 (by decide)).1.mpr (by decide), fun answered => ?_⟩
  have := (answers 0 (by decide)).1.mp answered
  simp at this

end Sample

end DecryptionRatchet

end KeyhiveEval.Mls
