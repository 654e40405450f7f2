/-
**`document.rs`: decrypting a content of a document and what it depends on.**

The content is decrypted with the group key of the document. The ancestors that its envelope names are looked up, and
causal decryption starts with those that the store has. Those that are missing are noted in an accumulator, which is
then dropped.

* `Reaches` — the ancestors that can be reached, through envelopes that open.
* `Finished` — a run that has ended without an error: what is reached is complete if the store has it (`complete`), and
  `next` has exactly the missing ancestors that an envelope below the entry point names (`next_iff`).
* **`tryCausalDecryptContent_forgets_iff`** — nothing is forgotten exactly if each missing ancestor of the entry point is
  named again further down.
-/

import KeyhiveEval.Core.CausalDecryption

namespace KeyhiveEval.Core

open Beekem

inductive DecryptError
  | keyNotFound
  | decryptionFailed
deriving DecidableEq

inductive DocCausalDecryptionError (Cr P GE ME : Type)
  | causalDecryptionError (error : CausalDecryptionError Cr P GE ME)
  | entrypointDecryptError (error : DecryptError)
  | getCiphertextError (error : GE)

/-- The group key of a document, once it is initialised. -/
structure Document where
  cgka : Option Cgka

namespace Document

variable (S : Suite) {Cr P GE ME : Type} [DecidableEq Cr] (reader : Reader Cr P GE ME)

section Call

variable [ContentRef Cr] (deserializeEntry : List UInt8 → Except String (Envelope Cr (List UInt8)))

def tryDecryptContent (document : Document) (encrypted : EncryptedContent Cr) : Except DecryptError (List UInt8) :=
  match document.cgka with
  | none => .error .keyNotFound
  | some cgka =>
    match Cgka.decryptionKeyFor S encrypted cgka with
    | .error _ _ => .error .keyNotFound
    | .ok key _ =>
      match key.tryDecrypt S.toCrypto encrypted.nonce encrypted.ciphertext with
      | none => .error .decryptionFailed
      | some plaintext => .ok plaintext

def entrypointEnvelope (document : Document) (encrypted : EncryptedContent Cr) :
    Except (DocCausalDecryptionError Cr P GE ME) (Envelope Cr (List UInt8)) :=
  match document.tryDecryptContent S encrypted with
  | .error error => .error (.entrypointDecryptError error)
  | .ok raw =>
    match deserializeEntry raw with
    | .error error => .error (.causalDecryptionError
        ⟨(∅ : Cannot Cr GE ME).insert encrypted.contentRef (.deserializationFailed error), ⟨[], ∅, ∅⟩⟩)
    | .ok envelope => .ok envelope

/-- Look up one ancestor of the entry point: the ciphertexts to decrypt, and the accumulator for the missing ones. -/
def lookUpAncestor (found : List (Item Cr) × AList fun _ : Cr => SymmetricKey) (ancestor : Cr × SymmetricKey) :
    Except GE (List (Item Cr) × AList fun _ : Cr => SymmetricKey) :=
  match reader.store.getCiphertext ancestor.1 with
  | .error error => .error error
  | .ok (some encrypted) => .ok (found.1 ++ [(encrypted, ancestor.2)], found.2)
  | .ok none => .ok (found.1, found.2.insert ancestor.1 ancestor.2)

/-- Decrypt a content and everything that it depends on. The accumulator is not used any more. -/
def tryCausalDecryptContent (fuel : Nat) (document : Document) (encrypted : EncryptedContent Cr) :
    Option (Except (DocCausalDecryptionError Cr P GE ME) (CausalDecryptionState Cr P)) :=
  match document.entrypointEnvelope S deserializeEntry encrypted with
  | .error error => some (.error error)
  | .ok envelope =>
    match envelope.ancestors.foldlM (lookUpAncestor reader) ([], ∅) with
    | .error error => some (.error (.getCiphertextError error))
    | .ok (toDecrypt, _) => (reader.tryCausalDecrypt fuel toDecrypt).map fun result =>
      match result with
      | .error error => .error (.causalDecryptionError error)
      | .ok state => .ok state

end Call

/-! ### What is reached -/

/-- **The ancestors that can be reached**, with their keys, from those of the entry point through envelopes that open. -/
inductive Reaches (entry : List (Cr × SymmetricKey)) : Cr → SymmetricKey → Prop
  | direct {ref key} : (ref, key) ∈ entry → Reaches entry ref key
  | through {ref key encrypted envelope ref' key'} : Reaches entry ref key →
      reader.store.getCiphertext ref = .ok (some encrypted) → reader.tryOpen (encrypted, key) = .ok envelope →
      (ref', key') ∈ envelope.ancestors → Reaches entry ref' key'

/-- An envelope that is reached and opens names the content. -/
def NamedBelow (entry : List (Cr × SymmetricKey)) (ref : Cr) (key : SymmetricKey) : Prop :=
  ∃ above key' encrypted envelope, Reaches reader entry above key' ∧
    reader.store.getCiphertext above = .ok (some encrypted) ∧ reader.tryOpen (encrypted, key') = .ok envelope ∧
    (ref, key) ∈ envelope.ancestors

variable {reader} {entry : List (Cr × SymmetricKey)} {toDecrypt : List (Item Cr)}

theorem mem_of_lookUpAncestors {found found' : List (Item Cr) × AList fun _ : Cr => SymmetricKey}
    (looks : entry.foldlM (lookUpAncestor reader) found = .ok found') :
    (∀ ref key error, (ref, key) ∈ entry → reader.store.getCiphertext ref ≠ .error error) ∧
      ∀ item, item ∈ found'.1 ↔ item ∈ found.1 ∨
        ∃ ref, (ref, item.2) ∈ entry ∧ reader.store.getCiphertext ref = .ok (some item.1) := by
  induction entry generalizing found with
  | nil =>
    obtain rfl := Except.ok.inj looks
    simp
  | cons ancestor rest ih =>
    obtain ⟨ref, key⟩ := ancestor
    rw [List.foldlM_cons] at looks
    obtain ⟨middle, first, later⟩ := Stateful.except_bind_ok_iff.mp looks
    obtain ⟨fails, stack⟩ := ih later
    unfold lookUpAncestor at first
    cases got : reader.store.getCiphertext ref with
    | error error => simp [got] at first
    | ok found =>
      have none : ∀ other key' error, (other, key') ∈ (ref, key) :: rest →
          reader.store.getCiphertext other ≠ .error error := by
        intro other key' error member
        rcases List.mem_cons.mp member with same | member
        · obtain ⟨rfl, rfl⟩ := Prod.mk.inj same
          simp [got]
        · exact fails other key' error member
      refine ⟨none, fun item => ?_⟩
      have head : (∃ other, (other, item.2) ∈ (ref, key) :: rest ∧ reader.store.getCiphertext other = .ok (some item.1)) ↔
          (item.2 = key ∧ found = some item.1) ∨
            ∃ other, (other, item.2) ∈ rest ∧ reader.store.getCiphertext other = .ok (some item.1) := by
        simp only [List.mem_cons, Prod.mk.injEq, or_and_right, exists_or, and_assoc, exists_eq_left, got, Except.ok.injEq]
      rw [stack, head]
      cases found with
      | none =>
        simp only [got, Except.ok.injEq] at first
        subst first
        simp
      | some encrypted =>
        simp only [got, Except.ok.injEq] at first
        subst first
        have pushed : item = (encrypted, key) ↔ item.2 = key ∧ some encrypted = some item.1 := by
          rw [Prod.ext_iff, and_comm, Option.some.injEq, eq_comm (a := encrypted)]
        rw [List.mem_append, List.mem_singleton, pushed, or_assoc]

/-- The ciphertexts that are met, from those of the entry point on. -/
def StartsAt (reader : Reader Cr P GE ME) (entry : List (Cr × SymmetricKey)) (toDecrypt : List (Item Cr)) : Prop :=
  ∀ item, item ∈ toDecrypt ↔ ∃ ref, (ref, item.2) ∈ entry ∧ reader.store.getCiphertext ref = .ok (some item.1)

omit [DecidableEq Cr] in
theorem StartsAt.reaches {item : Item Cr} (starts : StartsAt reader entry toDecrypt) (met : reader.Met toDecrypt item) :
    Reaches reader entry item.ref item.2 ∧ reader.store.getCiphertext item.ref = .ok (some item.1) := by
  have own {ref : Cr} {item : Item Cr} (found : reader.store.getCiphertext ref = .ok (some item.1)) : item.ref = ref :=
    reader.store.contentRef_eq found
  induction met with
  | @start item member =>
    obtain ⟨ref, named, found⟩ := (starts item).mp member
    obtain rfl := own found
    exact ⟨.direct named, found⟩
  | @ancestor item envelope ref key encrypted _ opens named found ih =>
    obtain rfl : Item.ref (encrypted, key) = ref := own found
    exact ⟨.through ih.1 ih.2 opens named, found⟩

theorem returns_ok {fuel : Nat} {state : CausalDecryptionState Cr P}
    (returns : reader.tryCausalDecrypt fuel toDecrypt = some (.ok state)) :
    ∃ run, Reader.Accounted reader toDecrypt run ∧ run.toDecrypt = [] ∧ run.toCausalDecryptionState = state ∧
      ∀ ref, ref ∉ run.cannot := by
  obtain ⟨run, accounted, empty, finishes⟩ := Reader.returns_accounted returns
  obtain ⟨sameProgress, sameReasons⟩ := @Reader.progress_finish _ _ _ _ _ reader run
  rw [finishes] at sameProgress sameReasons
  refine ⟨run, accounted, empty, sameProgress.symm, fun ref member => ?_⟩
  have kept := (@Reader.mark_foldl _ _ _ _ _ reader (run.complete.map Prod.fst) run.cannot).1 ref member
  rw [← sameReasons] at kept
  exact AList.notMem_empty ref kept

/-- **A run that has ended without an error**, in which every content is reached with one key. -/
structure Finished (reader : Reader Cr P GE ME) (entry : List (Cr × SymmetricKey))
    (run : Decryption Cr P GE ME) : Prop where
  started : ∃ toDecrypt, StartsAt reader entry toDecrypt ∧ Reader.Accounted reader toDecrypt run
  noError : ∀ ref key error, (ref, key) ∈ entry → reader.store.getCiphertext ref ≠ .error error
  empty : run.toDecrypt = []
  noReason : ∀ ref, ref ∉ run.cannot
  oneKey : ∀ ref key key', Reaches reader entry ref key → Reaches reader entry ref key' → key = key'

namespace Finished

variable {run : Decryption Cr P GE ME} {ref : Cr} {key : SymmetricKey} (finished : Finished reader entry run)

include finished

theorem complete_of_waits {item : Item Cr} (waits : item ∈ run.toDecrypt ∨ Reader.Handled run ref) :
    ref ∈ run.complete.map Prod.fst := by
  rw [finished.empty] at waits
  exact (waits.resolve_left List.not_mem_nil).resolve_right (finished.noReason ref)

/-- The store has what is complete, and it was opened with a key that it is reached with. -/
theorem opened (complete : ref ∈ run.complete.map Prod.fst) : ∃ found key inner, Reaches reader entry ref key ∧
    reader.store.getCiphertext ref = .ok (some found) ∧ reader.tryOpen (found, key) = .ok inner ∧
    ∀ other key', (other, key') ∈ inner.ancestors → Reader.Named reader run ref other key' := by
  obtain ⟨toDecrypt, starts, accounted⟩ := finished.started
  obtain ⟨noted, member, rfl⟩ := List.mem_map.mp complete
  obtain ⟨item, inner, opened, rfl⟩ := accounted.complete noted member
  obtain ⟨reached, got⟩ := starts.reaches opened.met
  exact ⟨item.1, item.2, inner, reached, got, opened.opens, opened.named⟩

theorem named {found : EncryptedContent Cr} {inner : Envelope Cr P} (reaches : Reaches reader entry ref key)
    (got : reader.store.getCiphertext ref = .ok (some found)) (isOpen : reader.tryOpen (found, key) = .ok inner)
    (complete : ref ∈ run.complete.map Prod.fst) {other : Cr} {key' : SymmetricKey}
    (names : (other, key') ∈ inner.ancestors) : Reader.Named reader run ref other key' := by
  obtain ⟨found', key'', inner', reaches', got', isOpen', named⟩ := finished.opened complete
  obtain rfl := Option.some.inj (Except.ok.inj (got'.symm.trans got))
  obtain rfl := finished.oneKey _ _ _ reaches' reaches
  obtain rfl := Except.ok.inj (isOpen'.symm.trans isOpen)
  exact named other key' names

/-- **What is reached is complete, if the store has it.** -/
theorem complete (reaches : Reaches reader entry ref key) {found : EncryptedContent Cr}
    (got : reader.store.getCiphertext ref = .ok (some found)) : ref ∈ run.complete.map Prod.fst := by
  induction reaches generalizing found with
  | @direct ref key names =>
    obtain ⟨toDecrypt, starts, accounted⟩ := finished.started
    have own : Item.ref (found, key) = ref := reader.store.contentRef_eq got
    have waits := accounted.starts (found, key) ((starts _).mpr ⟨ref, names, got⟩)
    exact finished.complete_of_waits (own ▸ waits)
  | @through above key' encrypted inner ref key reaches gotAbove isOpen names ih =>
    exact finished.complete_of_waits ((finished.named reaches gotAbove isOpen (ih gotAbove) names).found found got)

/-- The store has not failed on anything that is reached. -/
theorem ne_error (reaches : Reaches reader entry ref key) (error : GE) :
    reader.store.getCiphertext ref ≠ .error error := by
  intro fails
  cases reaches with
  | direct names => exact finished.noError ref key error names fails
  | through reaches gotAbove isOpen names =>
    have complete := finished.complete reaches gotAbove
    exact finished.noReason _ ((finished.named reaches gotAbove isOpen complete names).failed error fails)

/-- **Noted as missing are the missing contents that an envelope below the entry point names.** -/
theorem next_iff : run.next.lookup ref = some key ↔
    reader.store.getCiphertext ref = .ok none ∧ NamedBelow reader entry ref key := by
  have below {key : SymmetricKey} (noted : run.next.lookup ref = some key) :
      reader.store.getCiphertext ref = .ok none ∧ NamedBelow reader entry ref key := by
    obtain ⟨toDecrypt, starts, accounted⟩ := finished.started
    obtain ⟨missing, item, inner, met, isOpen, names⟩ := accounted.next ref key noted
    obtain ⟨reached, got⟩ := starts.reaches met
    exact ⟨missing, item.ref, item.2, item.1, inner, reached, got, isOpen, names⟩
  refine ⟨below, fun ⟨missing, above, key', encrypted, inner, reaches, got, isOpen, names⟩ => ?_⟩
  have noted := (finished.named reaches got isOpen (finished.complete reaches got) names).missing missing
  obtain ⟨last, found⟩ := Option.isSome_iff_exists.mp (AList.lookup_isSome.mpr noted)
  obtain ⟨-, above', other, encrypted', inner', reaches', got', isOpen', names'⟩ := below found
  obtain rfl := finished.oneKey _ _ _ (.through reaches' got' isOpen' names') (.through reaches got isOpen names)
  exact found

end Finished

/-! ### What is forgotten -/

section Forgets

variable {S} [ContentRef Cr] {deserializeEntry : List UInt8 → Except String (Envelope Cr (List UInt8))}
  {document : Document} {encrypted : EncryptedContent Cr} {envelope : Envelope Cr (List UInt8)} {fuel : Nat}
  {state : CausalDecryptionState Cr P}

theorem starts_of_returns (opens : document.entrypointEnvelope S deserializeEntry encrypted
      = (.ok envelope : Except (DocCausalDecryptionError Cr P GE ME) _))
    (returns : document.tryCausalDecryptContent S reader deserializeEntry fuel encrypted = some (.ok state)) :
    ∃ toDecrypt, (∀ ref key error, (ref, key) ∈ envelope.ancestors → reader.store.getCiphertext ref ≠ .error error) ∧
      StartsAt reader envelope.ancestors toDecrypt ∧ reader.tryCausalDecrypt fuel toDecrypt = some (.ok state) := by
  unfold tryCausalDecryptContent at returns
  rw [opens] at returns
  simp only at returns
  cases looks : envelope.ancestors.foldlM (lookUpAncestor reader) ([], ∅) with
  | error error => simp [looks] at returns
  | ok found =>
    obtain ⟨toDecrypt, acc⟩ := found
    obtain ⟨noError, stack⟩ := mem_of_lookUpAncestors looks
    simp only [looks] at returns
    obtain ⟨result, decrypts, same⟩ := Option.map_eq_some_iff.mp returns
    cases result with
    | error error => simp at same
    | ok state' =>
      obtain rfl := Except.ok.inj same
      exact ⟨toDecrypt, noError, fun item => by simpa using stack item, decrypts⟩

theorem finished_of_returns (opens : document.entrypointEnvelope S deserializeEntry encrypted
      = (.ok envelope : Except (DocCausalDecryptionError Cr P GE ME) _))
    (oneKey : ∀ ref key key', Reaches reader envelope.ancestors ref key → Reaches reader envelope.ancestors ref key' →
      key = key')
    (returns : document.tryCausalDecryptContent S reader deserializeEntry fuel encrypted = some (.ok state)) :
    ∃ run, Finished reader envelope.ancestors run ∧ run.toCausalDecryptionState = state := by
  obtain ⟨toDecrypt, noError, starts, decrypts⟩ := starts_of_returns opens returns
  obtain ⟨run, accounted, empty, same, noReason⟩ := returns_ok decrypts
  exact ⟨run, ⟨⟨toDecrypt, starts, accounted⟩, noError, empty, noReason, oneKey⟩, same⟩

/-- **Nothing is forgotten exactly if every missing ancestor of the entry point is named again** by an envelope that
opens. -/
theorem tryCausalDecryptContent_forgets_iff (opens : document.entrypointEnvelope S deserializeEntry encrypted
      = (.ok envelope : Except (DocCausalDecryptionError Cr P GE ME) _))
    (oneKey : ∀ ref key key', Reaches reader envelope.ancestors ref key → Reaches reader envelope.ancestors ref key' →
      key = key')
    (returns : document.tryCausalDecryptContent S reader deserializeEntry fuel encrypted = some (.ok state)) :
    (∀ ref key, Reaches reader envelope.ancestors ref key →
        ref ∈ state.complete.map Prod.fst ∨ state.next.lookup ref = some key) ↔
      ∀ ref key, (ref, key) ∈ envelope.ancestors → reader.store.getCiphertext ref = .ok none →
        NamedBelow reader envelope.ancestors ref key := by
  obtain ⟨run, finished, rfl⟩ := finished_of_returns opens oneKey returns
  constructor
  · intro nothing ref key names missing
    rcases nothing ref key (.direct names) with complete | noted
    · obtain ⟨found, -, -, -, got, -⟩ := finished.opened complete
      cases missing.symm.trans got
    · exact (finished.next_iff.mp noted).2
  · intro again ref key reaches
    cases got : reader.store.getCiphertext ref with
    | error error => exact absurd got (finished.ne_error reaches error)
    | ok result =>
      cases result with
      | some found => exact .inl (finished.complete reaches got)
      | none =>
        refine .inr (finished.next_iff.mpr ⟨got, ?_⟩)
        cases reaches with
        | direct names => exact again ref key names got
        | through reaches gotAbove isOpen names => exact ⟨_, _, _, _, reaches, gotAbove, isOpen, names⟩

end Forgets

namespace Sample

open Beekem.Sample

/-- A document of one member, and a content that was encrypted in it. -/
def written {Cr : Type} [ContentRef Cr] (ref : Cr) : Option (Document × EncryptedContent Cr) :=
  match create with
  | .error _ => none
  | .ok cgka =>
    match Cgka.newAppSecretFor suite ref [7] [] (signer 7) (rng 0x70) cgka with
    | .error _ _ => none
    | .ok (secret, _) cgka => (secret.tryEncrypt crypto [7]).map fun encrypted => (⟨some cgka⟩, encrypted)

def nothing : Reader Unit Unit Unit Unit where
  crypto := crypto
  deserialize _ := .error "unexpected end of file"
  store := ⟨fun _ => .ok none, fun _ => .ok (), nofun⟩

def missingKey : SymmetricKey := ⟨Vector.replicate 32 9⟩

/-- The envelope of the entry point names one ancestor. -/
def oneAncestor : List UInt8 → Except String (Envelope Unit (List UInt8)) := fun raw => .ok ⟨raw, [((), missingKey)]⟩

theorem exists_written {Cr P GE ME : Type} [DecidableEq Cr] [ContentRef Cr] (ref : Cr)
    (ancestors : List (Cr × SymmetricKey))
    (decrypts : (written ref).map (fun result => (result.1.tryDecryptContent suite result.2).toOption) = some (some [7])) :
    ∃ document encrypted, written ref = some (document, encrypted) ∧
      document.entrypointEnvelope suite (fun raw => .ok ⟨raw, ancestors⟩) encrypted
        = (.ok ⟨[7], ancestors⟩ : Except (DocCausalDecryptionError Cr P GE ME) _) := by
  obtain ⟨⟨document, encrypted⟩, made, opens⟩ := Option.map_eq_some_iff.mp decrypts
  have raw : document.tryDecryptContent suite encrypted = .ok [7] := by
    cases decrypts : document.tryDecryptContent suite encrypted with
    | error error => simp [decrypts, Except.toOption] at opens
    | ok raw => simpa [decrypts, Except.toOption] using opens
  refine ⟨document, encrypted, made, ?_⟩
  rw [entrypointEnvelope, raw]

instance : ContentRef Bool := ⟨fun _ => ⟨0⟩, fun _ => ⟨0⟩⟩

def presentKey : SymmetricKey := ⟨Vector.replicate 32 5⟩

/-- One content is there, and its envelope names the other one, which is missing. -/
def namesMissing : Reader Bool Unit Unit Unit where
  crypto := crypto
  deserialize _ := .ok ⟨(), [(true, missingKey)]⟩
  store := {
    getCiphertext := fun ref =>
      .ok (if ref then none else some ⟨⟨Vector.replicate 24 0⟩, [5, 0], ⟨0⟩, ⟨0⟩, false, ⟨0⟩⟩)
    markDecrypted := fun _ => .ok ()
    contentRef_eq := fun {ref encrypted} got => by
      cases ref with
      | false => rw [← Option.some.inj (Except.ok.inj got)]
      | true => cases got }

/-- An entry point that names both. -/
def twoAncestors : List (Bool × SymmetricKey) := [(false, presentKey), (true, missingKey)]

/-- **A missing ancestor that is named again** is not forgotten. -/
theorem missing_ancestor_named_again : ∃ document encrypted state, written false = some (document, encrypted) ∧
    document.tryCausalDecryptContent suite namesMissing (fun raw => .ok ⟨raw, twoAncestors⟩) 3 encrypted
      = some (.ok state) ∧ namesMissing.store.getCiphertext true = .ok none ∧
    ∀ ref key, Reaches namesMissing twoAncestors ref key →
      ref ∈ state.complete.map Prod.fst ∨ state.next.lookup ref = some key := by
  obtain ⟨document, encrypted, made, entry⟩ := exists_written false twoAncestors (by decide +kernel)
  obtain ⟨present, got, opens⟩ : ∃ encrypted, namesMissing.store.getCiphertext false = .ok (some encrypted) ∧
      namesMissing.tryOpen (encrypted, presentKey) = .ok ⟨(), [(true, missingKey)]⟩ := ⟨_, rfl, rfl⟩
  have oneKey {ref : Bool} {key : SymmetricKey} (reaches : Reaches namesMissing twoAncestors ref key) :
      key = if ref then missingKey else presentKey := by
    induction reaches with
    | direct named =>
      simp only [twoAncestors, List.mem_cons, Prod.mk.injEq, List.not_mem_nil, or_false] at named
      rcases named with ⟨rfl, rfl⟩ | ⟨rfl, rfl⟩ <;> rfl
    | @through ref key encrypted envelope _ _ _ got' opens' named ih =>
      cases ref with
      | true => cases got'
      | false =>
        obtain rfl := Option.some.inj (Except.ok.inj (got.symm.trans got'))
        rw [ih] at opens'
        obtain rfl := Except.ok.inj (opens.symm.trans opens')
        obtain ⟨rfl, rfl⟩ := Prod.mk.inj (List.mem_singleton.mp named)
        rfl
  obtain ⟨state, returns⟩ : ∃ state, document.tryCausalDecryptContent suite namesMissing
      (fun raw => .ok ⟨raw, twoAncestors⟩) 3 encrypted = some (.ok state) := by
    rw [tryCausalDecryptContent, entry]
    exact ⟨_, rfl⟩
  refine ⟨document, encrypted, state, made, returns, rfl, ?_⟩
  refine (tryCausalDecryptContent_forgets_iff entry (fun _ _ _ one two => (oneKey one).trans (oneKey two).symm)
    returns).mpr fun ref key named missing => ?_
  cases ref with
  | false => cases missing.symm.trans got
  | true =>
    rw [oneKey (.direct named)]
    exact ⟨false, presentKey, present, _, .direct List.mem_cons_self, got, opens, List.mem_singleton_self _⟩

/-- **A missing ancestor of the entry point is forgotten**: the call succeeds and reports nothing. -/
theorem missing_ancestor_forgotten : ∃ document encrypted state, written () = some (document, encrypted) ∧
    document.tryCausalDecryptContent suite nothing oneAncestor 1 encrypted = some (.ok state) ∧
    Reaches nothing [((), missingKey)] () missingKey ∧ nothing.store.getCiphertext () = .ok none ∧
    () ∉ state.complete.map Prod.fst ∧ state.next.lookup () = none := by
  obtain ⟨document, encrypted, made, entry⟩ := exists_written () [((), missingKey)] (by decide +kernel)
  refine ⟨document, encrypted, ⟨[], ∅, ∅⟩, made, ?_, .direct (List.mem_singleton_self _), rfl, by simp, rfl⟩
  rw [tryCausalDecryptContent, show document.entrypointEnvelope suite oneAncestor encrypted = _ from entry]
  rfl

end Sample

end Document

end KeyhiveEval.Core
