/-
**`store/ciphertext.rs`: decrypting contents and what they depend on.**

An envelope names its ancestors and their keys. `tryCausalDecrypt` works off a stack of ciphertexts with keys. What it
opens is complete; the ancestors are pushed if the store has their ciphertexts, and are noted in `next` if not. A content
is opened once, unless the store fails on one of its ancestors: then it is complete, in `cannot`, and may come again.

* `Accounted` — what holds of every state of the loop: nothing that was named is lost, apart from ancestors on which the
  store has failed.
* **`returns_accounted`** — so it is in what a call returns. It need not return: a content that names itself and an
  ancestor on which the store fails is completed over and over.
-/

import KeyhiveEval.Beekem.Sample
import Mathlib.Data.List.AList
import Mathlib.Data.Finset.Card

namespace KeyhiveEval.Core

open Beekem

/-- A plaintext, and the contents that it depends on with their keys, in the order in which the map is walked. -/
structure Envelope (Cr P : Type) where
  plaintext : P
  ancestors : List (Cr × SymmetricKey)

/-- A store of ciphertexts, each under its own content. -/
structure CiphertextStore (Cr GE ME : Type) where
  getCiphertext : Cr → Except GE (Option (EncryptedContent Cr))
  markDecrypted : Cr → Except ME Unit
  contentRef_eq : ∀ {ref encrypted}, getCiphertext ref = .ok (some encrypted) → encrypted.contentRef = ref

inductive ErrorReason (GE ME : Type)
  | getCiphertextError (error : GE)
  | markDecryptedError (error : ME)
  | deserializationFailed (error : String)
  | decryptionFailed (key : SymmetricKey)
deriving DecidableEq

structure CausalDecryptionState (Cr P : Type) where
  complete : List (Cr × P)
  keys : AList fun _ : Cr => SymmetricKey
  next : AList fun _ : Cr => SymmetricKey

/-- The contents that could not be handled, and why. -/
abbrev Cannot (Cr GE ME : Type) := AList fun _ : Cr => ErrorReason GE ME

structure CausalDecryptionError (Cr P GE ME : Type) where
  cannot : Cannot Cr GE ME
  progress : CausalDecryptionState Cr P

abbrev Item (Cr : Type) := EncryptedContent Cr × SymmetricKey

def Item.ref {Cr : Type} (item : Item Cr) : Cr := item.1.contentRef

/-- The state of the loop. The last ciphertext to be pushed comes first. -/
structure Decryption (Cr P GE ME : Type) extends CausalDecryptionState Cr P where
  toDecrypt : List (Item Cr)
  cannot : Cannot Cr GE ME
  seen : Finset Cr

/-- A store, and how its contents are decrypted and decoded. -/
structure Reader (Cr P GE ME : Type) where
  crypto : Crypto
  deserialize : List UInt8 → Except String (Envelope Cr P)
  store : CiphertextStore Cr GE ME

namespace Reader

variable {Cr P GE ME : Type} [DecidableEq Cr] (reader : Reader Cr P GE ME)

/-! ### The loop -/

def tryOpen (item : Item Cr) : Except (ErrorReason GE ME) (Envelope Cr P) :=
  match item.2.tryDecrypt reader.crypto item.1.nonce item.1.ciphertext with
  | none => .error (.decryptionFailed item.2)
  | some decrypted =>
    match reader.deserialize decrypted with
    | .error error => .error (.deserializationFailed error)
    | .ok envelope => .ok envelope

def lookUp (contentRef : Cr) (run : Decryption Cr P GE ME) (ancestor : Cr × SymmetricKey) : Decryption Cr P GE ME :=
  match reader.store.getCiphertext ancestor.1 with
  | .error error =>
    { run with
      seen := run.seen.erase contentRef
      cannot := run.cannot.insert contentRef (.getCiphertextError error) }
  | .ok none => { run with next := run.next.insert ancestor.1 ancestor.2 }
  | .ok (some encrypted) => { run with toDecrypt := (encrypted, ancestor.2) :: run.toDecrypt }

/-- One round of the loop, for the ciphertext that was popped. -/
def round (item : Item Cr) (run : Decryption Cr P GE ME) : Decryption Cr P GE ME :=
  if item.ref ∈ run.seen then run
  else
    let run := { run with seen := insert item.ref run.seen, keys := run.keys.insert item.ref item.2 }
    match reader.tryOpen item with
    | .error reason => { run with seen := run.seen.erase item.ref, cannot := run.cannot.insert item.ref reason }
    | .ok envelope =>
      let run := envelope.ancestors.foldl (reader.lookUp item.ref) run
      { run with complete := run.complete ++ [(item.ref, envelope.plaintext)] }

/-- The whole loop, or nothing when the fuel does not suffice. -/
def drain : Nat → Decryption Cr P GE ME → Option (Decryption Cr P GE ME)
  | 0, _ => none
  | fuel + 1, run =>
    match run.toDecrypt with
    | [] => some run
    | item :: rest => drain fuel (reader.round item { run with toDecrypt := rest })

def start (toDecrypt : List (Item Cr)) : Decryption Cr P GE ME := ⟨⟨[], ∅, ∅⟩, toDecrypt.reverse, ∅, ∅⟩

def mark (cannot : Cannot Cr GE ME) (id : Cr) : Cannot Cr GE ME :=
  match reader.store.markDecrypted id with
  | .error error => cannot.insert id (.markDecryptedError error)
  | .ok () => cannot

def finish (run : Decryption Cr P GE ME) : Except (CausalDecryptionError Cr P GE ME) (CausalDecryptionState Cr P) :=
  let cannot := (run.complete.map Prod.fst).foldl reader.mark run.cannot
  if cannot.entries.isEmpty then .ok run.toCausalDecryptionState else .error ⟨cannot, run.toCausalDecryptionState⟩

def tryCausalDecrypt (fuel : Nat) (toDecrypt : List (Item Cr)) :
    Option (Except (CausalDecryptionError Cr P GE ME) (CausalDecryptionState Cr P)) :=
  (reader.drain fuel (start toDecrypt)).map reader.finish

/-! ### What is accounted for -/

/-- **The ciphertexts and keys that can be met**, from those at the start through the envelopes that open. -/
inductive Met (toDecrypt : List (Item Cr)) : Item Cr → Prop
  | start {item} : item ∈ toDecrypt → Met toDecrypt item
  | ancestor {item envelope ref key encrypted} : Met toDecrypt item → reader.tryOpen item = .ok envelope →
      (ref, key) ∈ envelope.ancestors → reader.store.getCiphertext ref = .ok (some encrypted) →
      Met toDecrypt (encrypted, key)

variable {reader} {toDecrypt : List (Item Cr)} {run : Decryption Cr P GE ME} {item : Item Cr}
  {envelope : Envelope Cr P}

/-- A content is complete, or there is a reason why not. -/
def Handled (run : Decryption Cr P GE ME) (ref : Cr) : Prop := ref ∈ run.complete.map Prod.fst ∨ ref ∈ run.cannot

/-- What was named with an envelope: it waits, or it was handled, or it is noted as missing. -/
structure Named (reader : Reader Cr P GE ME) (run : Decryption Cr P GE ME) (content ref : Cr) (key : SymmetricKey) :
    Prop where
  failed : ∀ error, reader.store.getCiphertext ref = .error error → content ∈ run.cannot
  missing : reader.store.getCiphertext ref = .ok none → ref ∈ run.next
  found : ∀ encrypted, reader.store.getCiphertext ref = .ok (some encrypted) →
    (encrypted, key) ∈ run.toDecrypt ∨ Handled run ref

/-- A content that was opened with an envelope whose ancestors are accounted for. -/
structure Opened (reader : Reader Cr P GE ME) (toDecrypt : List (Item Cr)) (run : Decryption Cr P GE ME) (item : Item Cr)
    (envelope : Envelope Cr P) : Prop where
  met : reader.Met toDecrypt item
  opens : reader.tryOpen item = .ok envelope
  named : ∀ ref key, (ref, key) ∈ envelope.ancestors → Named reader run item.ref ref key

/-- **What holds of every state of the loop.** -/
structure Accounted (reader : Reader Cr P GE ME) (toDecrypt : List (Item Cr)) (run : Decryption Cr P GE ME) : Prop where
  stack : ∀ item ∈ run.toDecrypt, reader.Met toDecrypt item
  seen : ∀ ref ∈ run.seen, ref ∈ run.complete.map Prod.fst
  starts : ∀ item ∈ toDecrypt, item ∈ run.toDecrypt ∨ Handled run item.ref
  complete : ∀ entry ∈ run.complete, ∃ item envelope, Opened reader toDecrypt run item envelope ∧
    entry = (item.ref, envelope.plaintext)
  next : ∀ ref key, run.next.lookup ref = some key → reader.store.getCiphertext ref = .ok none ∧
    ∃ item envelope, reader.Met toDecrypt item ∧ reader.tryOpen item = .ok envelope ∧ (ref, key) ∈ envelope.ancestors
  cannot : ∀ ref reason, run.cannot.lookup ref = some reason → ∃ item, reader.Met toDecrypt item ∧ item.ref = ref ∧
    (reader.tryOpen item = .error reason ∨ ∃ envelope ancestor key error, reader.tryOpen item = .ok envelope ∧
      (ancestor, key) ∈ envelope.ancestors ∧ reader.store.getCiphertext ancestor = .error error ∧
      reason = .getCiphertextError error)

theorem accounted_start (toDecrypt : List (Item Cr)) : Accounted reader toDecrypt (start toDecrypt) where
  stack item member := .start (List.mem_reverse.mp member)
  seen ref member := by simp [start] at member
  starts item member := .inl (List.mem_reverse.mpr member)
  complete entry member := by simp [start] at member
  next ref key found := by simp [start] at found
  cannot ref reason found := by simp [start] at found

theorem Accounted.pops {rest : List (Item Cr)} (accounted : Accounted reader toDecrypt run)
    (pops : run.toDecrypt = item :: rest) :
    reader.Met toDecrypt item ∧ ∀ other ∈ rest, reader.Met toDecrypt other := by
  have stack := accounted.stack
  rw [pops] at stack
  exact List.forall_mem_cons.mp stack

/-! ### Looking up ancestors -/

/-- What looking up some ancestors of a content does. -/
structure LookedUp (reader : Reader Cr P GE ME) (content : Cr) (ancestors : List (Cr × SymmetricKey))
    (before after : Decryption Cr P GE ME) : Prop where
  complete : after.complete = before.complete
  stack : ∀ item, item ∈ after.toDecrypt ↔ item ∈ before.toDecrypt ∨
    ∃ ref, (ref, item.2) ∈ ancestors ∧ reader.store.getCiphertext ref = .ok (some item.1)
  next : ∀ ref, ref ∈ after.next ↔ ref ∈ before.next ∨
    (∃ key, (ref, key) ∈ ancestors) ∧ reader.store.getCiphertext ref = .ok none
  nextKey : ∀ ref key, after.next.lookup ref = some key → before.next.lookup ref = some key ∨
    (ref, key) ∈ ancestors ∧ reader.store.getCiphertext ref = .ok none
  cannot : ∀ ref, ref ∈ after.cannot ↔ ref ∈ before.cannot ∨ ref = content ∧ ∃ ancestor key error,
    (ancestor, key) ∈ ancestors ∧ reader.store.getCiphertext ancestor = .error error
  reason : ∀ ref reason, after.cannot.lookup ref = some reason → before.cannot.lookup ref = some reason ∨
    ref = content ∧ ∃ ancestor key error, (ancestor, key) ∈ ancestors ∧
      reader.store.getCiphertext ancestor = .error error ∧ reason = .getCiphertextError error
  seen : after.seen ⊆ before.seen

theorem lookup_insert_cases {V : Type} {map : AList fun _ : Cr => V} {key other : Cr} {value found : V}
    (here : (map.insert key value).lookup other = some found) :
    map.lookup other = some found ∨ other = key ∧ found = value := by
  by_cases same : other = key
  · subst same
    rw [AList.lookup_insert] at here
    exact .inr ⟨rfl, (Option.some.inj here).symm⟩
  · rw [AList.lookup_insert_ne same] at here
    exact .inl here

theorem lookedUp_one (content ref : Cr) (key : SymmetricKey) (run : Decryption Cr P GE ME) :
    LookedUp reader content [(ref, key)] run (reader.lookUp content run (ref, key)) := by
  unfold lookUp
  cases got : reader.store.getCiphertext ref with
  | error error =>
    simp only
    refine ⟨rfl, ?_, ?_, fun _ _ found => .inl found, ?_, fun other reason found => ?_, Finset.erase_subset _ _⟩
    · simp [got]
    · simp [got]
    · simp [got, or_comm]
    · rcases lookup_insert_cases found with old | ⟨rfl, rfl⟩
      · exact .inl old
      · exact .inr ⟨rfl, ref, key, error, List.mem_singleton_self _, got, rfl⟩
  | ok found =>
    cases found with
    | none =>
      simp only
      refine ⟨rfl, ?_, ?_, fun other found here => ?_, ?_, fun _ _ found => .inl found, subset_rfl⟩
      · simp [got]
      · intro other
        rw [AList.mem_insert]
        constructor
        · rintro (rfl | old)
          · exact .inr ⟨⟨key, List.mem_singleton_self _⟩, got⟩
          · exact .inl old
        · rintro (old | ⟨⟨_, here⟩, -⟩)
          · exact .inr old
          · exact .inl (Prod.mk.inj (List.mem_singleton.mp here)).1
      · rcases lookup_insert_cases here with old | ⟨rfl, rfl⟩
        · exact .inl old
        · exact .inr ⟨List.mem_singleton_self _, got⟩
      · simp [got]
    | some encrypted =>
      simp only
      refine ⟨rfl, fun item => ?_, ?_, fun _ _ found => .inl found, ?_, fun _ _ found => .inl found, subset_rfl⟩
      · obtain ⟨encrypted', key'⟩ := item
        simp only [List.mem_cons, Prod.mk.injEq, List.not_mem_nil, or_false]
        constructor
        · rintro (⟨rfl, rfl⟩ | old)
          · exact .inr ⟨ref, ⟨rfl, rfl⟩, got⟩
          · exact .inl old
        · rintro (old | ⟨_, ⟨rfl, rfl⟩, here⟩)
          · exact .inr old
          · rw [got] at here
            exact .inl ⟨(Option.some.inj (Except.ok.inj here)).symm, rfl⟩
      · simp [got]
      · simp [got]

theorem LookedUp.cons {content : Cr} {ancestor : Cr × SymmetricKey} {rest : List (Cr × SymmetricKey)}
    {before middle after : Decryption Cr P GE ME} (first : LookedUp reader content [ancestor] before middle)
    (later : LookedUp reader content rest middle after) : LookedUp reader content (ancestor :: rest) before after where
  complete := later.complete.trans first.complete
  stack item := by
    rw [later.stack, first.stack]
    simp only [List.mem_cons, List.not_mem_nil, or_false, or_and_right, exists_or, or_assoc]
  next ref := by
    rw [later.next, first.next]
    simp only [List.mem_cons, List.not_mem_nil, or_false, or_and_right, exists_or, or_assoc]
  nextKey ref key found := by
    rcases later.nextKey ref key found with old | ⟨member, missing⟩
    · exact (first.nextKey ref key old).imp_right fun new => ⟨List.mem_cons.mpr (.inl (List.mem_singleton.mp new.1)), new.2⟩
    · exact .inr ⟨List.mem_cons_of_mem _ member, missing⟩
  cannot ref := by
    rw [later.cannot, first.cannot]
    simp only [List.mem_cons, List.not_mem_nil, or_false, or_and_right, exists_or, or_assoc, and_or_left]
  reason ref reason found := by
    rcases later.reason ref reason found with old | ⟨rfl, named, key, error, member, rest⟩
    · rcases first.reason ref reason old with old | ⟨rfl, named, key, error, member, rest⟩
      · exact .inl old
      · exact .inr ⟨rfl, named, key, error, List.mem_cons.mpr (.inl (List.mem_singleton.mp member)), rest⟩
    · exact .inr ⟨rfl, named, key, error, List.mem_cons_of_mem _ member, rest⟩
  seen := later.seen.trans first.seen

theorem lookedUp (content : Cr) (ancestors : List (Cr × SymmetricKey)) (run : Decryption Cr P GE ME) :
    LookedUp reader content ancestors run (ancestors.foldl (reader.lookUp content) run) := by
  induction ancestors generalizing run with
  | nil => constructor <;> simp
  | cons ancestor rest ih => exact (lookedUp_one content ancestor.1 ancestor.2 run).cons (ih _)

/-! ### One round -/

theorem round_cases (item : Item Cr) (run : Decryption Cr P GE ME) :
    (item.ref ∈ run.seen ∧ reader.round item run = run) ∨
      (∃ reason, item.ref ∉ run.seen ∧ reader.tryOpen item = .error reason ∧ reader.round item run = { run with
        keys := run.keys.insert item.ref item.2
        cannot := run.cannot.insert item.ref reason }) ∨
      ∃ envelope after, item.ref ∉ run.seen ∧ reader.tryOpen item = .ok envelope ∧
        LookedUp reader item.ref envelope.ancestors
          { run with seen := insert item.ref run.seen, keys := run.keys.insert item.ref item.2 } after ∧
        reader.round item run = { after with complete := after.complete ++ [(item.ref, envelope.plaintext)] } := by
  unfold round
  by_cases again : item.ref ∈ run.seen
  · exact .inl ⟨again, if_pos again⟩
  · rw [if_neg again]
    cases opened : reader.tryOpen item with
    | error reason =>
      refine .inr (.inl ⟨reason, again, rfl, ?_⟩)
      simp only [Finset.erase_insert again]
    | ok envelope => exact .inr (.inr ⟨envelope, _, again, rfl, lookedUp _ _ _, rfl⟩)

/-- What is never lost from one state to a later one. -/
structure Later (run run' : Decryption Cr P GE ME) : Prop where
  handled : ∀ ref, Handled run ref → Handled run' ref
  cannot : ∀ ref ∈ run.cannot, ref ∈ run'.cannot
  next : ∀ ref ∈ run.next, ref ∈ run'.next
  stack : ∀ item ∈ run.toDecrypt, item ∈ run'.toDecrypt ∨ Handled run' item.ref

variable {run' : Decryption Cr P GE ME}

omit [DecidableEq Cr] in
theorem Later.named (later : Later run run') {content ref : Cr} {key : SymmetricKey}
    (named : Named reader run content ref key) : Named reader run' content ref key where
  failed error fails := later.cannot _ (named.failed error fails)
  missing missing := later.next _ (named.missing missing)
  found encrypted found := (named.found encrypted found).elim
    (fun waits => (later.stack _ waits).imp_right fun handled => reader.store.contentRef_eq found ▸ handled)
    fun handled => .inr (later.handled ref handled)

omit [DecidableEq Cr] in
theorem Later.opened (later : Later run run') (opened : Opened reader toDecrypt run item envelope) :
    Opened reader toDecrypt run' item envelope :=
  { opened with named := fun ref key member => later.named (opened.named ref key member) }

theorem later_round {rest : List (Item Cr)} (accounted : Accounted reader toDecrypt run)
    (pops : run.toDecrypt = item :: rest) : Later run (reader.round item { run with toDecrypt := rest }) := by
  have split {run' : Decryption Cr P GE ME} (keeps : ∀ item ∈ rest, item ∈ run'.toDecrypt)
      (handled : Handled run' item.ref) (other : Item Cr) (member : other ∈ run.toDecrypt) :
      other ∈ run'.toDecrypt ∨ Handled run' other.ref := by
    rw [pops] at member
    rcases List.mem_cons.mp member with rfl | member
    · exact .inr handled
    · exact .inl (keeps other member)
  rcases round_cases item { run with toDecrypt := rest } with
    ⟨again, same⟩ | ⟨reason, -, -, same⟩ | ⟨envelope, after, -, -, lookedUp, same⟩
  · rw [same]
    exact ⟨fun _ => id, fun _ => id, fun _ => id, split (fun _ => id) (.inl (accounted.seen _ again))⟩
  · rw [same]
    refine ⟨fun ref handled => handled.imp_right fun member => ?_, fun ref member => ?_, fun _ => id,
      split (fun _ => id) (.inr ?_)⟩
    · exact (AList.mem_insert _).mpr (.inr member)
    · exact (AList.mem_insert _).mpr (.inr member)
    · exact (AList.mem_insert _).mpr (.inl rfl)
  · rw [same]
    have complete : after.complete = run.complete := lookedUp.complete
    have cannot (ref : Cr) (member : ref ∈ run.cannot) : ref ∈ after.cannot := (lookedUp.cannot ref).mpr (.inl member)
    refine ⟨fun ref handled => ?_, cannot, fun ref member => (lookedUp.next ref).mpr (.inl member),
      split (fun other member => (lookedUp.stack other).mpr (.inl member)) (.inl ?_)⟩
    · refine handled.imp (fun member => ?_) (cannot ref)
      rw [complete, List.map_append]
      exact List.mem_append_left _ member
    · rw [List.map_append]
      exact List.mem_append_right _ (List.mem_singleton_self _)

theorem Accounted.round {rest : List (Item Cr)} (accounted : Accounted reader toDecrypt run)
    (pops : run.toDecrypt = item :: rest) :
    Accounted reader toDecrypt (reader.round item { run with toDecrypt := rest }) := by
  have later := later_round accounted pops
  obtain ⟨met, below⟩ := accounted.pops pops
  have cases' := @round_cases _ _ _ _ _ reader item { run with toDecrypt := rest }
  revert later cases'
  generalize reader.round item { run with toDecrypt := rest } = run'
  intro later cases'
  have starts : ∀ item ∈ toDecrypt, item ∈ run'.toDecrypt ∨ Handled run' item.ref := fun item member =>
    (accounted.starts item member).elim (later.stack item) fun handled => .inr (later.handled _ handled)
  have complete : ∀ entry ∈ run.complete, ∃ item envelope, Opened reader toDecrypt run' item envelope ∧
      entry = (item.ref, envelope.plaintext) := fun entry member =>
    let ⟨item, envelope, opened, same⟩ := accounted.complete entry member
    ⟨item, envelope, later.opened opened, same⟩
  rcases cases' with ⟨-, rfl⟩ | ⟨reason, -, fails, rfl⟩ | ⟨envelope, after, -, opens, lookedUp, rfl⟩
  · exact ⟨below, accounted.seen, starts, complete, accounted.next, accounted.cannot⟩
  · refine ⟨below, accounted.seen, starts, complete, accounted.next, fun ref found here => ?_⟩
    rcases lookup_insert_cases here with old | ⟨rfl, rfl⟩
    · exact accounted.cannot ref found old
    · exact ⟨item, met, rfl, .inl fails⟩
  · have sameComplete : after.complete = run.complete := lookedUp.complete
    refine ⟨fun other member => ?_, fun ref member => ?_, starts, fun entry member => ?_, fun ref key found => ?_,
      fun ref reason found => ?_⟩
    · rcases (lookedUp.stack other).mp member with old | ⟨ref, named, got⟩
      · exact below other old
      · exact .ancestor met opens named got
    · rw [List.map_append, sameComplete]
      rcases Finset.mem_insert.mp (lookedUp.seen member) with rfl | old
      · exact List.mem_append_right _ (List.mem_singleton_self _)
      · exact List.mem_append_left _ (accounted.seen ref old)
    · rcases List.mem_append.mp member with old | new
      · exact complete entry (sameComplete ▸ old)
      · obtain rfl := List.mem_singleton.mp new
        refine ⟨item, envelope, ⟨met, opens, fun ref key named => ⟨fun error fails => ?_, fun missing => ?_,
          fun encrypted found => .inl ?_⟩⟩, rfl⟩
        · exact (lookedUp.cannot _).mpr (.inr ⟨rfl, ref, key, error, named, fails⟩)
        · exact (lookedUp.next ref).mpr (.inr ⟨⟨key, named⟩, missing⟩)
        · exact (lookedUp.stack _).mpr (.inr ⟨ref, named, found⟩)
    · rcases lookedUp.nextKey ref key found with old | ⟨named, missing⟩
      · exact accounted.next ref key old
      · exact ⟨missing, item, envelope, met, opens, named⟩
    · rcases lookedUp.reason ref reason found with old | ⟨rfl, ancestor, key, error, named, fails, rfl⟩
      · exact accounted.cannot ref reason old
      · exact ⟨item, met, rfl, .inr ⟨envelope, ancestor, key, error, opens, named, fails, rfl⟩⟩

theorem drain_induct {motive : Decryption Cr P GE ME → Prop} {fuel : Nat}
    (round : ∀ run item rest, motive run → run.toDecrypt = item :: rest →
      motive (reader.round item { run with toDecrypt := rest }))
    (start : motive run) (drained : reader.drain fuel run = some run') : motive run' ∧ run'.toDecrypt = [] := by
  induction fuel generalizing run with
  | zero => cases drained
  | succ fuel ih =>
    unfold drain at drained
    split at drained
    · rename_i empty
      obtain rfl := Option.some.inj drained
      exact ⟨start, empty⟩
    · rename_i item rest pops
      exact ih (round run item rest start pops) drained

/-! ### The result -/

section Result

variable {fuel : Nat} {result : Except (CausalDecryptionError Cr P GE ME) (CausalDecryptionState Cr P)}

/-- What was reached, whether the call succeeds or not. -/
def progress : Except (CausalDecryptionError Cr P GE ME) (CausalDecryptionState Cr P) → CausalDecryptionState Cr P
  | .ok state => state
  | .error error => error.progress

def reasons : Except (CausalDecryptionError Cr P GE ME) (CausalDecryptionState Cr P) → Cannot Cr GE ME
  | .ok _ => ∅
  | .error error => error.cannot

theorem mark_foldl (ids : List Cr) (cannot : Cannot Cr GE ME) :
    (∀ ref ∈ cannot, ref ∈ ids.foldl reader.mark cannot) ∧
      ∀ ref reason, (ids.foldl reader.mark cannot).lookup ref = some reason →
        cannot.lookup ref = some reason ∨ ∃ error, reason = .markDecryptedError error := by
  induction ids generalizing cannot with
  | nil => exact ⟨fun _ => id, fun _ _ => .inl⟩
  | cons id rest ih =>
    obtain ⟨keeps, marks⟩ := ih (reader.mark cannot id)
    rw [List.foldl_cons]
    unfold mark at keeps marks ⊢
    cases marked : reader.store.markDecrypted id with
    | ok =>
      simp only [marked] at keeps marks
      exact ⟨keeps, marks⟩
    | error error =>
      simp only [marked] at keeps marks
      refine ⟨fun ref member => keeps ref ((AList.mem_insert _).mpr (.inr member)), fun ref reason found => ?_⟩
      rcases marks ref reason found with old | marked
      · rcases lookup_insert_cases old with old | ⟨-, rfl⟩
        · exact .inl old
        · exact .inr ⟨error, rfl⟩
      · exact .inr marked

theorem progress_finish (run : Decryption Cr P GE ME) :
    progress (reader.finish run) = run.toCausalDecryptionState ∧
      reasons (reader.finish run) = (run.complete.map Prod.fst).foldl reader.mark run.cannot := by
  unfold finish
  by_cases empty : ((run.complete.map Prod.fst).foldl reader.mark run.cannot).entries.isEmpty = true
  · simp only [empty, if_true, progress, reasons, true_and]
    exact (AList.ext (List.isEmpty_iff.mp empty)).symm
  · simp only [empty, progress, reasons]
    exact ⟨rfl, rfl⟩

/-- **Everything that was named is complete, noted as missing, or has a reason why not** when a call returns. -/
theorem returns_accounted (returns : reader.tryCausalDecrypt fuel toDecrypt = some result) :
    ∃ run, Accounted reader toDecrypt run ∧ run.toDecrypt = [] ∧ reader.finish run = result := by
  obtain ⟨run, drained, finishes⟩ := Option.map_eq_some_iff.mp returns
  obtain ⟨accounted, empty⟩ := drain_induct (motive := fun run => Accounted reader toDecrypt run)
    (fun run item rest accounted pops => accounted.round pops) (accounted_start toDecrypt) drained
  exact ⟨run, accounted, empty, finishes⟩

end Result

end Reader

end KeyhiveEval.Core
