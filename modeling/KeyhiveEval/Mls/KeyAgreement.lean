/-
**Sender and receiver derive the same keys.**

Each member of an epoch asks its own secret tree for the keys of its messages and of those of the others, in any order,
and the crypto provider may fail at any time.

* `Right` — the head of a ratchet is that of its generation, and each key that is kept is that of its slot, also after a
  call that has failed in the middle of a skip.
* `SecretTree.keys_agree` — what the receiver gets for a message is what the sender has encrypted it with.
-/

import KeyhiveEval.Mls.DecryptionWindow
import KeyhiveEval.Mls.SecretTree

namespace KeyhiveEval.Mls

open Stateful

variable {Secret : Type} {suite : Ciphersuite} {kdf : Kdf Secret} {provider : Provider Secret} {secret : Secret}

/-! ### The ratchets of a leaf -/

theorem after_ratchetForward (computes : provider.Computes kdf) {head : RatchetSecret Secret}
    (right : head = headAt suite kdf secret head.generation) :
    After (RatchetSecret.ratchetForward suite provider head)
      (fun out next => out = (head.generation, keyMaterial suite kdf secret head.generation) ∧
        next = headAt suite kdf secret (head.generation + 1))
      (fun _ next => next = head) := by
  obtain ⟨current, generation⟩ := head
  obtain rfl : current = chain suite kdf secret generation := congrArg RatchetSecret.secret right
  rw [RatchetSecret.ratchetForward, after_bind, after_get]
  split
  · rfl
  · rw [deriveTreeSecret, after_bind]
    refine SecretTree.after_expand computes ?_ fun _ _ => rfl
    rw [deriveTreeSecret, after_bind]
    refine SecretTree.after_expand computes ?_ fun _ _ => rfl
    rw [deriveTreeSecret, after_bind]
    exact SecretTree.after_expand computes ⟨rfl, rfl⟩ fun _ _ => rfl

/-- A ratchet of another member is in place. -/
def DecryptionRatchet.Right (suite : Ciphersuite) (kdf : Kdf Secret) (secret : Secret)
    (ratchet : DecryptionRatchet Secret) : Prop :=
  ratchet.ratchetHead = headAt suite kdf secret ratchet.generation ∧
    ∀ (index : Nat) (material : RatchetKeyMaterial Secret), ratchet.pastSecrets[index]? = some (some material) →
      index < ratchet.generation ∧ material = keyMaterial suite kdf secret (ratchet.generation - 1 - index)

namespace DecryptionRatchet

variable {ratchet : DecryptionRatchet Secret}

theorem Right.pushed (right : ratchet.Right suite kdf secret) {entry : Option (RatchetKeyMaterial Secret)}
    (fits : ∀ material ∈ entry, material = keyMaterial suite kdf secret ratchet.generation) :
    Right suite kdf secret ⟨entry :: ratchet.pastSecrets, headAt suite kdf secret (ratchet.generation + 1)⟩ := by
  refine ⟨rfl, fun index material found => ?_⟩
  show index < ratchet.generation + 1 ∧ material = keyMaterial suite kdf secret (ratchet.generation + 1 - 1 - index)
  cases index with
  | zero => exact ⟨by omega, fits material (Option.some.inj found)⟩
  | succ index =>
    obtain ⟨within, same⟩ := right.2 index material found
    rw [show ratchet.generation + 1 - 1 - (index + 1) = ratchet.generation - 1 - index by omega]
    exact ⟨by omega, same⟩

theorem after_forwardHead (computes : provider.Computes kdf) (right : ratchet.Right suite kdf secret) :
    After (forwardHead suite provider ratchet)
      (fun material next => material = keyMaterial suite kdf secret ratchet.generation ∧
        next = ⟨ratchet.pastSecrets, headAt suite kdf secret (ratchet.generation + 1)⟩)
      (fun _ next => next = ratchet) := by
  have forward := after_ratchetForward computes right.1
  unfold forwardHead
  cases result : RatchetSecret.ratchetForward suite provider ratchet.ratchetHead with
  | ok out head =>
    rw [result] at forward
    obtain ⟨rfl, rfl⟩ := forward
    exact ⟨rfl, rfl⟩
  | error error head =>
    rw [result] at forward
    obtain rfl := forward
    rfl

theorem after_skip (computes : provider.Computes kdf) (count : Nat) (right : ratchet.Right suite kdf secret) :
    After (skip suite provider count ratchet)
      (fun _ next => next.Right suite kdf secret ∧ next.generation = ratchet.generation + count)
      (fun _ next => next.Right suite kdf secret) := by
  induction count generalizing ratchet with
  | zero => exact ⟨right, rfl⟩
  | succ count ih =>
    rw [skip, after_bind]
    refine (after_forwardHead computes right).mono ?_ fun _ next same => same ▸ right
    rintro _ _ ⟨rfl, rfl⟩
    rw [after_bind, pushFront, after_modify]
    refine (ih (right.pushed (by simp))).mono ?_ fun _ _ => id
    rintro _ next ⟨right, head⟩
    refine ⟨right, head.trans ?_⟩
    show ratchet.generation + 1 + count = _
    omega

theorem after_takePast (right : ratchet.Right suite kdf secret) (index : Nat) :
    After (takePast index ratchet)
      (fun material next => material = keyMaterial suite kdf secret (ratchet.generation - 1 - index) ∧
        next.Right suite kdf secret)
      (fun _ next => next.Right suite kdf secret) := by
  have taken : Right suite kdf secret { ratchet with pastSecrets := ratchet.pastSecrets.set index none } := by
    refine ⟨right.1, fun other material found => right.2 other material ?_⟩
    rw [List.getElem?_set] at found
    split at found
    · split at found <;> simp at found
    · exact found
  rw [takePast, after_bind, after_get]
  cases found : ratchet.pastSecrets[index]? with
  | none => exact right
  | some entry =>
    cases entry with
    | none => exact taken
    | some material => exact ⟨(right.2 index material found).2, taken⟩

/-- Whether it fails or not, a call leaves the ratchet in place. -/
theorem after_secretForDecryption_right (computes : provider.Computes kdf) (right : ratchet.Right suite kdf secret)
    (generation : Nat) (configuration : SenderRatchetConfiguration) :
    After (secretForDecryption suite provider generation configuration ratchet)
      (fun material next => material = keyMaterial suite kdf secret generation ∧ next.Right suite kdf secret)
      (fun _ next => next.Right suite kdf secret) := by
  rw [secretForDecryption, after_bind, after_get, after_ite]
  refine ⟨fun _ => right, fun _ => ?_⟩
  rw [after_ite]
  refine ⟨fun _ => right, fun _ => ?_⟩
  rw [after_ite]
  refine ⟨fun ahead => ?_, fun behind => ?_⟩
  · rw [after_bind]
    refine (after_skip computes (generation - ratchet.generation) right).mono ?_ fun _ _ => id
    rintro _ skipped ⟨right, head⟩
    rw [after_bind]
    refine (after_forwardHead computes right).mono ?_ fun _ next same => same ▸ right
    rintro _ _ ⟨rfl, rfl⟩
    have pushed : Right suite kdf secret ⟨none :: skipped.pastSecrets, _⟩ := right.pushed (by simp)
    refine ⟨by rw [head, Nat.add_sub_cancel' ahead], rfl, fun index material found => pushed.2 index material ?_⟩
    rw [List.getElem?_take] at found
    split at found
    · exact found
    · cases found
  · rw [after_ite]
    refine ⟨fun _ => ?_, fun _ => right⟩
    refine (after_takePast right _).mono ?_ fun _ _ => id
    rintro _ next ⟨same, right⟩
    refine ⟨?_, right⟩
    rw [same, show ratchet.generation - 1 - (ratchet.generation - generation - 1) = generation by omega]

end DecryptionRatchet

/-- A ratchet is in place. -/
def SenderRatchet.Right (suite : Ciphersuite) (kdf : Kdf Secret) (secret : Secret) : SenderRatchet Secret → Prop
  | .encryptionRatchet head => head = headAt suite kdf secret head.generation
  | .decryptionRatchet ratchet => ratchet.Right suite kdf secret

theorem SenderRatchet.Evolves.right {first ratchet : SenderRatchet Secret} (evolves : Evolves kdf suite first ratchet)
    (right : first.Right suite kdf secret) : ratchet.Right suite kdf secret := by
  induction evolves with
  | refl => exact right
  | @encrypt head provider before computes ih =>
    have forward := after_ratchetForward computes ih
    exact After.final (P := fun head => head = headAt suite kdf secret head.generation)
      (forward.mono (fun _ _ next => next.2 ▸ rfl) fun _ _ same => same ▸ ih)
  | @decrypt ratchet provider before computes generation configuration ih =>
    have served := DecryptionRatchet.after_secretForDecryption_right computes ih generation configuration
    exact After.final (P := DecryptionRatchet.Right suite kdf secret) (served.mono (fun _ _ => And.right) fun _ _ => id)

/-! ### The trees of two members -/

namespace SecretTree

variable {encryptionSecret : Secret} {height ownIndex leaf : Nat} {secretType : SecretType} {tree : SecretTree Secret}
  {α : Type} {post : α → Prop}

theorem returns_onRatchet {σ : Type} {pack : σ → SenderRatchet Secret} {method : EStateM SecretTreeError σ α}
    {ratchet : σ} (returns : After (method ratchet) (fun out _ => post out) fun _ _ => True) :
    After (onRatchet leaf secretType pack method ratchet tree) (fun out _ => post out) fun _ _ => True := by
  rw [onRatchet]
  cases result : method ratchet with
  | ok out next =>
    rw [result] at returns
    rw [after_bind]
    exact after_const returns _
  | error error next =>
    rw [after_bind]
    exact after_const trivial _

/-- What is returned, from a ratchet that is in place. -/
theorem returns_withRatchet {use : SenderRatchet Secret → SecretTreeM Secret α} (computes : provider.Computes kdf)
    (low : height ≤ 30) (inv : Inv suite kdf encryptionSecret height ownIndex tree)
    (rest : ∀ tree' ratchet, ratchet.Right suite kdf (ratchetSecret suite kdf encryptionSecret height secretType leaf) →
      After (use ratchet tree') (fun out _ => post out) fun _ _ => True) :
    After ((do
      if (← ratchetOpt leaf secretType).isNone then initializeSenderRatchets suite provider leaf
      use (← ratchetMut leaf secretType)) tree) (fun out _ => post out) fun _ _ => True := by
  have go {tree' : SecretTree Secret} (inv' : Inv suite kdf encryptionSecret height ownIndex tree') :
      After ((ratchetMut leaf secretType >>= use) tree') (fun out _ => post out) fun _ _ => True := by
    rw [after_bind, ratchetMut, after_bind, after_get]
    rcases found : (tree'.ratchets secretType)[leaf]? with _ | _ | ratchet
    · trivial
    · trivial
    · refine rest tree' ratchet ((inv'.evolves found).right ?_)
      unfold firstRatchet
      split
      · rfl
      · exact ⟨rfl, by simp [DecryptionRatchet.new]⟩
  rw [after_bind]
  cases found : (tree.ratchets secretType)[leaf]? with
  | none =>
    rw [ratchetOpt, after_bind, after_get, found]
    trivial
  | some ratchet =>
    rw [after_ratchetOpt found]
    split
    · rw [after_bind]
      refine (after_initializeSenderRatchets computes low inv).mono ?_ fun _ _ _ => trivial
      rintro _ tree' ⟨inv', -⟩
      exact go inv'
    · exact go inv

theorem returns_secretForEncryption (computes : provider.Computes kdf) (low : height ≤ 30)
    (inv : Inv suite kdf encryptionSecret height ownIndex tree) :
    After (secretForEncryption suite provider leaf secretType tree)
      (fun out _ => out.2 =
        keyMaterial suite kdf (ratchetSecret suite kdf encryptionSecret height secretType leaf) out.1)
      fun _ _ => True := by
  refine returns_withRatchet computes low inv fun tree' ratchet right => ?_
  cases ratchet with
  | decryptionRatchet => trivial
  | encryptionRatchet head =>
    have forward := after_ratchetForward computes right
    exact returns_onRatchet (forward.mono (fun _ _ same => same.1 ▸ rfl) fun _ _ _ => trivial)

theorem returns_secretForDecryption {generation : Nat} {configuration : SenderRatchetConfiguration}
    (computes : provider.Computes kdf) (low : height ≤ 30) (inv : Inv suite kdf encryptionSecret height ownIndex tree) :
    After (secretForDecryption suite provider leaf secretType generation configuration tree)
      (fun out _ => out =
        keyMaterial suite kdf (ratchetSecret suite kdf encryptionSecret height secretType leaf) generation)
      fun _ _ => True := by
  rw [secretForDecryption, after_bind, after_get]
  split
  · trivial
  · refine returns_withRatchet computes low inv fun tree' ratchet right => ?_
    cases ratchet with
    | encryptionRatchet => trivial
    | decryptionRatchet ratchet =>
      have served := DecryptionRatchet.after_secretForDecryption_right computes right generation configuration
      exact returns_onRatchet (served.mono (fun _ _ => And.left) fun _ _ _ => trivial)

/-- **Sender and receiver agree.** Whatever two members of an epoch have asked their trees for before: the key and the
nonce that the sender encrypts its message of a generation with are what the receiver gets for it, if anything. -/
theorem keys_agree (suite : Ciphersuite) (kdf : Kdf Secret) (encryptionSecret : Secret) {height : Nat}
    (low : height ≤ 30) (sender receiver : Nat) {sent received : List (Request Secret)}
    (computes : ∀ request ∈ sent ++ received, request.provider.Computes kdf) {provider provider' : Provider Secret}
    (sends : provider.Computes kdf) (receives : provider'.Computes kdf) {secretType : SecretType} {generation : Nat}
    {material material' : RatchetKeyMaterial Secret} {configuration : SenderRatchetConfiguration}
    {tree tree' : SecretTree Secret}
    (encrypts : secretForEncryption suite provider sender secretType
      (run suite encryptionSecret (.ofHeight height) sender sent) = .ok (generation, material) tree)
    (decrypts : secretForDecryption suite provider' sender secretType generation configuration
      (run suite encryptionSecret (.ofHeight height) receiver received) = .ok material' tree') :
    material' = material := by
  rw [List.forall_mem_append] at computes
  have inv : Inv suite kdf encryptionSecret height sender _ := inv_run low computes.1
  have inv' : Inv suite kdf encryptionSecret height receiver _ := inv_run low computes.2
  have encrypted : After (secretForEncryption suite provider sender secretType _) _ _ :=
    returns_secretForEncryption sends low inv
  have decrypted : After (secretForDecryption suite provider' sender secretType generation configuration _) _ _ :=
    returns_secretForDecryption receives low inv'
  rw [encrypts] at encrypted
  rw [decrypts] at decrypted
  exact decrypted.trans encrypted.symm

namespace Sample

/-- Leaf 0 has decrypted the second message of leaf 2 before the first. -/
def receiver : SecretTree Nat :=
  run Sample.suite 7 (.ofHeight 2) 0 [.decryption (.ofKdf Sample.kdf) 2 .applicationSecret 1 ⟨5, 1000⟩]

def sent : Option ((Nat × RatchetKeyMaterial Nat) × SecretTree Nat) :=
  value? (secretForEncryption Sample.suite (.ofKdf Sample.kdf) 2 .applicationSecret
    (run Sample.suite 7 (.ofHeight 2) 2 []))

def received (generation : Nat) : Option (RatchetKeyMaterial Nat × SecretTree Nat) :=
  value? (secretForDecryption Sample.suite (.ofKdf Sample.kdf) 2 .applicationSecret generation ⟨5, 1000⟩ receiver)

theorem isSent : sent.isSome := by decide +kernel

theorem first_message_agrees : ∃ isReceived : (received (sent.get isSent).1.1).isSome,
    ((received _).get isReceived).1 = (sent.get isSent).1.2 := by
  have computes : (Provider.ofKdf Sample.kdf).Computes Sample.kdf := fun _ _ _ _ _ same => (Except.ok.inj same).symm
  have isReceived : (received (sent.get isSent).1.1).isSome := by decide +kernel
  exact ⟨isReceived, keys_agree Sample.suite Sample.kdf 7 (by decide) 2 0 (by simpa [Request.provider] using computes)
    computes computes (eq_ok_of_isSome isSent) (eq_ok_of_isSome isReceived)⟩

end Sample

end SecretTree

end KeyhiveEval.Mls
