/-
**`TwoPartyProtocol.java`: the channel between two clients.**

Every message brings a new public key of the sender and a new secret key for the receiver. It is encrypted to the key
that was given out last in the sender's view: the receiver's, if the sender's last action was to decrypt, and otherwise
the one that the sender's last message carried. The first message of a side may use a prekey.

* `Primitives` — the cryptography and the encoding, of which nothing is assumed but that decryption and decoding invert
  (`Setup.Lawful`).
* `wrap` — a Java `int`. The indices are integers, and every sum is wrapped to 32 bits.
* `TwoPartyProtocol.encrypt`, `decrypt` — the two methods. `null` is `none`, an exception is an error. A call of
  `decrypt` that never returns is `none` as a whole.
* `Channel` — both ends and the messages between them; `Channel.Reachable` are the runs that decrypt the messages of
  each direction in order.
* `Made`, `Letter` — to what a message was encrypted. `Side` is what holds of an end, given what both have made.
* `Channel.Reachable.decrypts_in_order` — while neither end has made 2³¹ - 1 messages, every message is decrypted, and
  the keys up to the one that it uses are gone. `Sample.last_key_never_decrypts` — an answer to the message with that
  number is never decrypted: the loop that deletes keys does not end.
* `Channel.Reachable.keeps_unused_keys`, `encrypt_fails_iff` — the other keys are there, and only prekeys fail.
-/

import KeyhiveEval.Dcgka.Basic
import KeyhiveEval.Lib.Stateful

namespace KeyhiveEval.Dcgka

open Stateful

/-! ### Integers -/

/-- The values of an `int`. -/
def IsInt (value : Int) : Prop := -2 ^ 31 ≤ value ∧ value < 2 ^ 31

/-- The result of a sum, as an `int`. -/
def wrap (value : Int) : Int := Int.bmod value (2 ^ 32)

theorem isInt_zero : IsInt 0 := ⟨by decide, by decide⟩

theorem isInt_one : IsInt 1 := ⟨by decide, by decide⟩

theorem isInt_neg_one : IsInt (-1) := ⟨by decide, by decide⟩

theorem isInt_wrap (value : Int) : IsInt (wrap value) := by
  rw [IsInt, wrap, Int.bmod_def]
  split <;> omega

theorem wrap_of_isInt {value : Int} (inside : IsInt value) : wrap value = value := by
  rw [IsInt] at inside
  rw [wrap, Int.bmod_def]
  split <;> omega

/-! ### Messages -/

structure TwoPartyPlaintext (Bytes PublicKey SecretKey : Type) where
  appPlaintext : Bytes
  receiverNewSk : SecretKey
  senderNewPkIndex : Int
  senderNewPk : PublicKey

structure TwoPartyMessage (Bytes : Type) where
  ciphertext : Bytes
  senderOtherPkSender : Bool
  receiverPkIndex : Int

/-- The cryptography and the encoding that the channel calls. What a call draws at random, and what it makes a prekey
source return, is a seed. -/
structure Primitives where
  Bytes : Type
  PublicKey : Type
  SecretKey : Type
  Seed : Type
  IdentityKey : Type
  PreKey : Type
  PreKeySecret : Type
  PreKeySource : Type
  generateKeyPair : Seed → PublicKey × SecretKey
  encrypt : PublicKey → Bytes → Seed → Bytes
  decrypt : SecretKey → Bytes → Option Bytes
  getPreKey : PreKeySource → IdentityKey → Seed → Except Exc PreKey
  preKeyEncrypt : PreKeySecret → Bytes → PreKey → Seed → Except Exc Bytes
  preKeyDecrypt : PreKeySecret → Bytes → IdentityKey → Option (PreKeySecret × Bytes)
  serializePlaintext : TwoPartyPlaintext Bytes PublicKey SecretKey → Bytes
  deserializePlaintext : Bytes → Option (TwoPartyPlaintext Bytes PublicKey SecretKey)
  serializeMessage : TwoPartyMessage Bytes → Bytes
  deserializeMessage : Bytes → Option (TwoPartyMessage Bytes)

/-! ### The protocol -/

structure TwoPartyProtocol (P : Primitives) where
  preKeySecret : Option P.PreKeySecret
  preKeySource : Option P.PreKeySource
  peer : Option P.IdentityKey
  mySks : Int → Option P.SecretKey
  minIndex : Int
  nextIndex : Int
  otherPk : Option P.PublicKey
  amIOtherPkSender : Bool
  otherPkIndex : Int
  receivedSk : Option P.SecretKey

structure Draws (P : Primitives) where
  mine : P.Seed
  other : P.Seed
  source : P.Seed
  cipher : P.Seed

variable {P : Primitives}

namespace TwoPartyProtocol

def new (preKeySecret : P.PreKeySecret) (preKeySource : P.PreKeySource) (peer : P.IdentityKey) : TwoPartyProtocol P :=
  ⟨some preKeySecret, some preKeySource, some peer, fun _ => none, 1, 1, none, false, 0, none⟩

def encryptFirst (protocol : TwoPartyProtocol P) (plaintext : P.Bytes) (draws : Draws P) : Except Exc P.Bytes :=
  match protocol.preKeySecret, protocol.preKeySource, protocol.peer with
  | some secret, some source, some peer => do
    let preKey ← P.getPreKey source peer draws.source
    P.preKeyEncrypt secret plaintext preKey draws.cipher
  | _, _, _ => .error .nullPointer

/-- Encrypt to the key that was given out last. -/
def encryptToOther (protocol : TwoPartyProtocol P) (plaintext : P.Bytes) (draws : Draws P) : Except Exc P.Bytes :=
  match protocol.otherPk with
  | none => protocol.encryptFirst plaintext draws
  | some otherPk => .ok (P.encrypt otherPk plaintext draws.cipher)

def encrypt (protocol : TwoPartyProtocol P) (plaintext : P.Bytes) (draws : Draws P) :
    Except Exc (TwoPartyProtocol P × P.Bytes) := do
  let myNewKeyPair := P.generateKeyPair draws.mine
  let otherNewKeyPair := P.generateKeyPair draws.other
  let twoPartyPlaintext := P.serializePlaintext ⟨plaintext, otherNewKeyPair.2, protocol.nextIndex, myNewKeyPair.1⟩
  let ciphertext ← protocol.encryptToOther twoPartyPlaintext draws
  return ({ protocol with
      mySks := Function.update protocol.mySks protocol.nextIndex (some myNewKeyPair.2)
      nextIndex := wrap (protocol.nextIndex + 1)
      otherPk := some otherNewKeyPair.1
      amIOtherPkSender := true
      otherPkIndex := -1 },
    P.serializeMessage ⟨ciphertext, protocol.amIOtherPkSender, protocol.otherPkIndex⟩)

/-- The loop that deletes keys, or nothing when the fuel does not suffice. -/
def deleteKeysLoop (last : Int) : Nat → Int → (Int → Option P.SecretKey) → Option (Int → Option P.SecretKey)
  | 0, _, _ => none
  | fuel + 1, index, sks =>
    if index ≤ last then deleteKeysLoop last fuel (wrap (index + 1)) (Function.update sks index none) else some sks

/-- An `int` has 2³² values: a loop that runs longer never ends. -/
def deleteKeys (sks : Int → Option P.SecretKey) (first last : Int) : Option (Int → Option P.SecretKey) :=
  deleteKeysLoop last (2 ^ 32 + 1) first sks

/-- The plaintext of a message, and the keys that are left. -/
def openMessage (protocol : TwoPartyProtocol P) (message : TwoPartyMessage P.Bytes) :
    Option (Except Exc (Option (P.Bytes × (Int → Option P.SecretKey) × Int))) :=
  if message.senderOtherPkSender then
    match protocol.receivedSk with
    | none => some (.ok none)
    | some receivedSk =>
      some (.ok ((P.decrypt receivedSk message.ciphertext).map fun plaintext =>
        (plaintext, protocol.mySks, protocol.minIndex)))
  else if message.receiverPkIndex = 0 then
    match protocol.preKeySecret, protocol.peer with
    | some preKeySecret, some peer =>
      some (.ok ((P.preKeyDecrypt preKeySecret message.ciphertext peer).map fun result =>
        (result.2, protocol.mySks, protocol.minIndex)))
    | _, _ => some (.error .nullPointer)
  else
    match protocol.mySks message.receiverPkIndex with
    | none => some (.ok none)
    | some secretKey =>
      match P.decrypt secretKey message.ciphertext with
      | none => some (.ok none)
      | some plaintext =>
        (deleteKeys protocol.mySks protocol.minIndex message.receiverPkIndex).map fun mySks =>
          .ok (some (plaintext, mySks, wrap (message.receiverPkIndex + 1)))

def decrypt (protocol : TwoPartyProtocol P) (ciphertext : P.Bytes) :
    Option (Except Exc (Option (TwoPartyProtocol P × P.Bytes))) :=
  match P.deserializeMessage ciphertext with
  | none => some (.ok none)
  | some message =>
    (protocol.openMessage message).map fun opened => do
      match ← opened with
      | none => return none
      | some (plaintext, mySks, minIndex) =>
        match P.deserializePlaintext plaintext with
        | none => return none
        | some inner =>
          return some (⟨none, none, none, mySks, minIndex, protocol.nextIndex, some inner.senderNewPk, false,
            inner.senderNewPkIndex, some inner.receiverNewSk⟩, inner.appPlaintext)

theorem decrypt_frame {protocol after : TwoPartyProtocol P} {ciphertext result : P.Bytes}
    (decrypts : protocol.decrypt ciphertext = some (.ok (some (after, result)))) :
    after.nextIndex = protocol.nextIndex ∧ after.otherPk ≠ none := by
  unfold decrypt at decrypts
  split at decrypts
  · cases decrypts
  · obtain ⟨opened, -, returns⟩ := Option.map_eq_some_iff.mp decrypts
    obtain ⟨found, -, returns⟩ := except_bind_ok_iff.mp returns
    split at returns
    · cases returns
    · split at returns
      · cases returns
      · cases returns
        exact ⟨rfl, nofun⟩

/-! ### Deleting keys -/

/-- **The loop does not end at the largest `int`.** -/
theorem deleteKeysLoop_eq_none (fuel : Nat) {index : Int} (inside : IsInt index) (sks : Int → Option P.SecretKey) :
    deleteKeysLoop (2 ^ 31 - 1) fuel index sks = none := by
  induction fuel generalizing index sks with
  | zero => rfl
  | succ fuel ih =>
    have more : index ≤ 2 ^ 31 - 1 := by have := inside.2; omega
    rw [deleteKeysLoop, if_pos more]
    exact ih (isInt_wrap _) _

theorem deleteKeysLoop_eq_some {last : Int} (small : last < 2 ^ 31 - 1) {fuel : Nat} {first : Int}
    (inside : IsInt first) (enough : (last + 1 - first).toNat < fuel) (sks : Int → Option P.SecretKey) :
    deleteKeysLoop last fuel first sks =
      some fun index => if first ≤ index ∧ index ≤ last then none else sks index := by
  induction fuel generalizing first sks with
  | zero => cases enough
  | succ fuel ih =>
    rw [deleteKeysLoop]
    split
    · have next : IsInt (first + 1) := ⟨by have := inside.1; omega, by omega⟩
      rw [wrap_of_isInt next, ih next (by omega)]
      congr 1
      funext index
      rw [Function.update_apply]
      split_ifs <;> first | rfl | omega
    · congr 1
      funext index
      rw [if_neg (by omega)]

end TwoPartyProtocol

/-! ### Channels -/

/-- Two clients, with their prekeys. -/
structure Setup (P : Primitives) where
  secret : Bool → P.PreKeySecret
  source : Bool → P.PreKeySource
  identity : Bool → P.IdentityKey

/-- **What is assumed**: decryption inverts encryption for matching keys, and decoding inverts encoding for indices
that are an `int`. -/
structure Setup.Lawful (setup : Setup P) : Prop where
  hpke : ∀ pair plaintext seed,
    P.decrypt (P.generateKeyPair pair).2 (P.encrypt (P.generateKeyPair pair).1 plaintext seed) = some plaintext
  preKeys : ∀ side drawn preKey plaintext seed ciphertext,
    P.getPreKey (setup.source side) (setup.identity !side) drawn = .ok preKey →
    P.preKeyEncrypt (setup.secret side) plaintext preKey seed = .ok ciphertext →
    ∃ next, P.preKeyDecrypt (setup.secret !side) ciphertext (setup.identity side) = some (next, plaintext)
  plaintexts : ∀ plaintext, IsInt plaintext.senderNewPkIndex →
    P.deserializePlaintext (P.serializePlaintext plaintext) = some plaintext
  messages : ∀ message, IsInt message.receiverPkIndex →
    P.deserializeMessage (P.serializeMessage message) = some message

/-- Both ends, the messages of each with their plaintexts, and how many of them the other has decrypted. -/
structure Channel (P : Primitives) where
  ends : Bool → TwoPartyProtocol P
  sent : Bool → List (P.Bytes × P.Bytes)
  read : Bool → Nat

namespace Channel

def new (setup : Setup P) : Channel P :=
  ⟨fun side => .new (setup.secret side) (setup.source side) (setup.identity !side), fun _ => [], fun _ => 0⟩

/-- The runs: either end encrypts, or decrypts the next message of the other. -/
inductive Reachable (setup : Setup P) : Channel P → Prop
  | new : Reachable setup (.new setup)
  | encrypt {channel : Channel P} {side : Bool} {plaintext : P.Bytes} {draws : Draws P}
      {protocol : TwoPartyProtocol P} {ciphertext : P.Bytes} (before : Reachable setup channel)
      (encrypts : (channel.ends side).encrypt plaintext draws = .ok (protocol, ciphertext)) :
      Reachable setup { channel with
        ends := Function.update channel.ends side protocol
        sent := Function.update channel.sent side (channel.sent side ++ [(plaintext, ciphertext)]) }
  | decrypt {channel : Channel P} {side : Bool} {plaintext ciphertext result : P.Bytes}
      {protocol : TwoPartyProtocol P} (before : Reachable setup channel)
      (next : (channel.sent side)[channel.read side]? = some (plaintext, ciphertext))
      (decrypts : (channel.ends !side).decrypt ciphertext = some (.ok (some (protocol, result)))) :
      Reachable setup { channel with
        ends := Function.update channel.ends (!side) protocol
        read := Function.update channel.read side (channel.read side + 1) }

end Channel

/-! ### What the messages use -/

/-- A message that an end has made: the seeds of its two pairs, and how many keys of the receiver it uses up. -/
structure Made (P : Primitives) where
  plaintext : P.Bytes
  ciphertext : P.Bytes
  own : P.Seed
  other : P.Seed
  uses : Nat

/-- What is encrypted in the message with a number. -/
def Made.inner (made : Made P) (number : Nat) : P.Bytes :=
  P.serializePlaintext ⟨made.plaintext, (P.generateKeyPair made.other).2, number + 1, (P.generateKeyPair made.own).1⟩

/-- How many keys of the receiver a run of messages uses up. -/
def deleted (messages : List (Made P)) : Nat := messages.foldl (fun low made => max low made.uses) 0

theorem deleted_concat (messages : List (Made P)) (made : Made P) :
    deleted (messages ++ [made]) = max (deleted messages) made.uses := by
  simp [deleted]

theorem uses_le_deleted {messages : List (Made P)} {made : Made P} (mem : made ∈ messages) :
    made.uses ≤ deleted messages := by
  induction messages using List.reverseRecOn with
  | nil => cases mem
  | append_singleton messages last hyp =>
    rw [deleted_concat]
    rcases List.mem_append.mp mem with earlier | same
    · exact (hyp earlier).trans (Nat.le_max_left _ _)
    · rw [List.mem_singleton.mp same]
      exact Nat.le_max_right _ _

/-- **The key of a message.** The message with a number among the own ones is encrypted to a prekey, to the key that
the one before it has brought, or to a key of the other end that no earlier one has used up. -/
inductive Letter (setup : Setup P) (side : Bool) (mine theirs : List (Made P)) (number : Nat) (made : Made P) : Prop
  | preKey {next : P.PreKeySecret} {body : P.Bytes} (first : number = 0) (uses : made.uses = 0)
      (sent : made.ciphertext = P.serializeMessage ⟨body, false, 0⟩)
      (opens : P.preKeyDecrypt (setup.secret !side) body (setup.identity side) = some (next, made.inner number))
  | given {before : Made P} {count : Nat} {body : P.Bytes} (later : number = count + 1)
      (last : mine[count]? = some before) (uses : made.uses = 0)
      (sent : made.ciphertext = P.serializeMessage ⟨body, true, -1⟩)
      (opens : P.decrypt (P.generateKeyPair before.other).2 body = some (made.inner number))
  | own {key : Made P} {index : Nat} {body : P.Bytes} (brought : theirs[index]? = some key)
      (unused : deleted (mine.take number) ≤ index) (uses : made.uses = index + 1)
      (sent : made.ciphertext = P.serializeMessage ⟨body, false, index + 1⟩)
      (opens : P.decrypt (P.generateKeyPair key.own).2 body = some (made.inner number))

theorem getElem?_concat_of_some {α : Type} {list : List α} {index : Nat} {value : α} (new : α)
    (found : list[index]? = some value) : (list ++ [new])[index]? = some value := by
  rw [List.getElem?_append_left (List.getElem?_eq_some_iff.mp found).1, found]

section Letters

variable {setup : Setup P} {side : Bool} {mine theirs : List (Made P)} {number : Nat} {made : Made P}

theorem Letter.concat_mine (letter : Letter setup side mine theirs number made) (inside : number ≤ mine.length)
    (new : Made P) : Letter setup side (mine ++ [new]) theirs number made := by
  cases letter with
  | preKey first uses sent opens => exact .preKey first uses sent opens
  | given later last uses sent opens => exact .given later (getElem?_concat_of_some new last) uses sent opens
  | own brought unused uses sent opens =>
    refine .own brought ?_ uses sent opens
    rwa [List.take_append_of_le_length inside]

theorem Letter.concat_theirs (letter : Letter setup side mine theirs number made) (new : Made P) :
    Letter setup side mine (theirs ++ [new]) number made := by
  cases letter with
  | preKey first uses sent opens => exact .preKey first uses sent opens
  | given later last uses sent opens => exact .given later last uses sent opens
  | own brought unused uses sent opens => exact .own (getElem?_concat_of_some new brought) unused uses sent opens

/-- The header of a letter names the key that it uses. -/
theorem Letter.header (letter : Letter setup side mine theirs number made) (few : theirs.length < 2 ^ 31) :
    ∃ message, made.ciphertext = P.serializeMessage message ∧ IsInt message.receiverPkIndex ∧
      (message.senderOtherPkSender = false → message.receiverPkIndex = made.uses) := by
  cases letter with
  | preKey first uses sent opens => exact ⟨_, sent, isInt_zero, fun _ => by rw [uses]; rfl⟩
  | given later last uses sent opens => exact ⟨_, sent, isInt_neg_one, fun own => by simp at own⟩
  | own brought unused uses sent opens =>
    have inside := (List.getElem?_eq_some_iff.mp brought).1
    exact ⟨_, sent, ⟨by dsimp only; omega, by dsimp only; omega⟩, fun _ => by rw [uses]; rfl⟩

end Letters

/-! ### The two ends -/

/-- **Which key was given out last**, in the view of an end that has decrypted `read` messages of the other. -/
inductive Standing (protocol : TwoPartyProtocol P) (mine theirs : List (Made P)) (read : Nat) : Prop
  | fresh (none_made : mine = []) (none_read : read = 0) (otherPk : protocol.otherPk = none)
      (flag : protocol.amIOtherPkSender = false) (index : protocol.otherPkIndex = 0)
  | made {last : Made P} {count : Nat} (length : mine.length = count + 1) (found : mine[count]? = some last)
      (otherPk : protocol.otherPk = some (P.generateKeyPair last.other).1) (flag : protocol.amIOtherPkSender = true)
      (index : protocol.otherPkIndex = -1)
  | read {last : Made P} {count : Nat} (length : read = count + 1) (found : theirs[count]? = some last)
      (otherPk : protocol.otherPk = some (P.generateKeyPair last.own).1) (flag : protocol.amIOtherPkSender = false)
      (index : protocol.otherPkIndex = count + 1) (unused : deleted mine ≤ count)

/-- The keys that are left when the other end has used up `low` of them. -/
def keysFrom (mine : List (Made P)) (low : Nat) (index : Int) : Option P.SecretKey :=
  if (low : Int) < index then mine[(index - 1).toNat]?.map fun made => (P.generateKeyPair made.own).2 else none

/-- **What holds of an end**, given what it and the other have made. The last `int` was not used as an index. -/
structure Side (setup : Setup P) (side : Bool) (protocol : TwoPartyProtocol P) (mine theirs : List (Made P))
    (read : Nat) : Prop where
  minIndex : protocol.minIndex = deleted (theirs.take read) + 1
  nextIndex : protocol.nextIndex = wrap (mine.length + 1)
  mySks : protocol.mySks = keysFrom mine (deleted (theirs.take read))
  seen : read ≤ theirs.length
  brought : deleted (theirs.take read) ≤ mine.length
  small : deleted (theirs.take read) < 2 ^ 31 - 1
  preKeys : read = 0 → protocol.preKeySecret = some (setup.secret side) ∧
    protocol.preKeySource = some (setup.source side) ∧ protocol.peer = some (setup.identity !side)
  received : ∀ count last, read = count + 1 → theirs[count]? = some last →
    protocol.receivedSk = some (P.generateKeyPair last.other).2
  standing : Standing protocol mine theirs read

section Ends

variable {setup : Setup P} {side : Bool} {protocol : TwoPartyProtocol P} {mine theirs : List (Made P)} {read : Nat}

/-! ### Encrypting -/

/-- **What an end encrypts is a letter**, which uses up no more keys of the other than it has seen. -/
theorem Side.letter (holds : Side setup side protocol mine theirs read) (lawful : setup.Lawful)
    (few : mine.length + 1 < 2 ^ 31) {plaintext body : P.Bytes} {draws : Draws P}
    (encrypts : protocol.encryptToOther (P.serializePlaintext ⟨plaintext, (P.generateKeyPair draws.other).2,
      protocol.nextIndex, (P.generateKeyPair draws.mine).1⟩) draws = .ok body) :
    ∃ uses ≤ read, Letter setup side mine theirs mine.length
      ⟨plaintext, P.serializeMessage ⟨body, protocol.amIOtherPkSender, protocol.otherPkIndex⟩, draws.mine,
        draws.other, uses⟩ := by
  rw [holds.nextIndex, wrap_of_isInt ⟨by omega, by omega⟩, TwoPartyProtocol.encryptToOther] at encrypts
  cases holds.standing with
  | fresh none_made none_read otherPk flag index =>
    obtain ⟨secret, source, peer⟩ := holds.preKeys none_read
    rw [otherPk, TwoPartyProtocol.encryptFirst, secret, source, peer] at encrypts
    obtain ⟨preKey, drawn, sealed⟩ := except_bind_ok_iff.mp encrypts
    obtain ⟨next, opens⟩ := lawful.preKeys side _ _ _ _ _ drawn sealed
    exact ⟨0, Nat.zero_le _, .preKey (by rw [none_made]; rfl) rfl (by rw [flag, index]) opens⟩
  | made length found otherPk flag index =>
    rw [otherPk] at encrypts
    cases encrypts
    exact ⟨0, Nat.zero_le _, .given length found rfl (by rw [flag, index]; rfl) (lawful.hpke _ _ draws.cipher)⟩
  | read length found otherPk flag index unused =>
    rw [otherPk] at encrypts
    cases encrypts
    refine ⟨_, length.symm.le, .own found ?_ rfl (by rw [flag, index]; rfl) (lawful.hpke _ _ draws.cipher)⟩
    rwa [List.take_length]

/-- **Encrypting keeps what holds of an end.** -/
theorem Side.encrypt (holds : Side setup side protocol mine theirs read) (lawful : setup.Lawful)
    (few : mine.length + 1 < 2 ^ 31) {plaintext ciphertext : P.Bytes} {draws : Draws P} {after : TwoPartyProtocol P}
    (encrypts : protocol.encrypt plaintext draws = .ok (after, ciphertext)) :
    ∃ made : Made P, made.plaintext = plaintext ∧ made.ciphertext = ciphertext ∧ made.uses ≤ read ∧
      Letter setup side mine theirs mine.length made ∧ Side setup side after (mine ++ [made]) theirs read := by
  obtain ⟨body, sealed, result⟩ := except_bind_ok_iff.mp encrypts
  cases result
  obtain ⟨uses, seen, letter⟩ := holds.letter lawful few sealed
  refine ⟨_, rfl, rfl, seen, letter, ?_⟩
  have last : ∀ made : Made P, (mine ++ [made])[mine.length]? = some made := fun made => by simp
  have nextIndex : protocol.nextIndex = mine.length + 1 := by
    rw [holds.nextIndex, wrap_of_isInt ⟨by omega, by omega⟩]
  refine ⟨holds.minIndex, ?_, ?_, holds.seen, holds.brought.trans (by simp), holds.small, holds.preKeys,
    holds.received, .made List.length_append (last _) rfl rfl rfl⟩
  · rw [List.length_append, nextIndex, List.length_singleton, Nat.cast_add, Nat.cast_one]
  · funext index
    have brought := holds.brought
    dsimp only
    rw [nextIndex, keysFrom]
    rcases eq_or_ne index (mine.length + 1) with rfl | other
    · rw [Function.update_self, if_pos (by omega), show ((mine.length : Int) + 1 - 1).toNat = mine.length by omega,
        last, Option.map_some]
    · rw [Function.update_of_ne other, holds.mySks, keysFrom]
      split
      · congr 1
        rcases Nat.lt_or_gt_of_ne (show (index - 1).toNat ≠ mine.length by omega) with inside | beyond
        · rw [List.getElem?_append_left inside]
        · rw [List.getElem?_eq_none beyond.le, List.getElem?_eq_none (by simpa using beyond)]
      · rfl

theorem Side.concat_theirs (holds : Side setup side protocol mine theirs read) (new : Made P) :
    Side setup side protocol mine (theirs ++ [new]) read := by
  have same : (theirs ++ [new]).take read = theirs.take read := List.take_append_of_le_length holds.seen
  refine ⟨same ▸ holds.minIndex, holds.nextIndex, same ▸ holds.mySks, holds.seen.trans (by simp),
    same ▸ holds.brought, same ▸ holds.small, holds.preKeys, fun count last later found => ?_, ?_⟩
  · have seen := holds.seen
    rw [List.getElem?_append_left (by omega)] at found
    exact holds.received count last later found
  · cases holds.standing with
    | fresh none_made none_read otherPk flag index => exact .fresh none_made none_read otherPk flag index
    | made length found otherPk flag index => exact .made length found otherPk flag index
    | read length found otherPk flag index unused =>
      exact .read length (getElem?_concat_of_some new found) otherPk flag index unused

/-! ### Decrypting -/

/-- **The next letter of the other end opens**, and the keys that it uses up are gone. The loop that deletes them ends
if the key is not the last one. -/
theorem Side.openMessage (holds : Side setup side protocol mine theirs read) (few : mine.length < 2 ^ 31)
    {made : Made P} (letter : Letter setup (!side) theirs mine read made) :
    ∃ message, made.ciphertext = P.serializeMessage message ∧ IsInt message.receiverPkIndex ∧
      made.uses ≤ mine.length ∧ protocol.openMessage message = if made.uses = 2 ^ 31 - 1 then none else
        some (.ok (some (made.inner read, keysFrom mine (max (deleted (theirs.take read)) made.uses),
          (max (deleted (theirs.take read)) made.uses : Nat) + 1))) := by
  cases letter with
  | preKey first uses sent opens =>
    obtain ⟨secret, -, peer⟩ := holds.preKeys first
    rw [Bool.not_not] at opens
    refine ⟨_, sent, isInt_zero, uses ▸ Nat.zero_le _, ?_⟩
    rw [if_neg (by omega)]
    simp only [TwoPartyProtocol.openMessage, secret, peer, opens, holds.mySks, holds.minIndex, uses, Nat.max_zero,
      Bool.false_eq_true, if_false, if_true, Option.map_some]
  | given later last uses sent opens =>
    refine ⟨_, sent, isInt_neg_one, uses ▸ Nat.zero_le _, ?_⟩
    rw [if_neg (by omega)]
    simp only [TwoPartyProtocol.openMessage, holds.received _ _ later last, opens, holds.mySks, holds.minIndex, uses,
      Nat.max_zero, if_true, Option.map_some]
  | @own key index body brought unused uses sent opens =>
    have inside : index < mine.length := (List.getElem?_eq_some_iff.mp brought).1
    have present : protocol.mySks (index + 1) = some (P.generateKeyPair key.own).2 := by
      rw [holds.mySks, keysFrom, if_pos (by omega), show ((index : Int) + 1 - 1).toNat = index by omega, brought,
        Option.map_some]
    have small := holds.small
    have first : IsInt protocol.minIndex := by
      rw [holds.minIndex]
      exact ⟨by omega, by omega⟩
    refine ⟨_, sent, ⟨by dsimp only; omega, by dsimp only; omega⟩, uses ▸ inside, ?_⟩
    rw [TwoPartyProtocol.openMessage, if_neg Bool.false_ne_true, if_neg (by dsimp only; omega), present]
    dsimp only
    rw [opens]
    dsimp only
    rw [TwoPartyProtocol.deleteKeys]
    split
    · rw [show (index : Int) + 1 = 2 ^ 31 - 1 by omega, TwoPartyProtocol.deleteKeysLoop_eq_none _ first]
      rfl
    · rw [TwoPartyProtocol.deleteKeysLoop_eq_some (by omega) first (by rw [holds.minIndex]; omega), Option.map_some,
        uses, Nat.max_eq_right (by omega), wrap_of_isInt ⟨by omega, by omega⟩]
      congr 5
      funext other
      rw [holds.mySks, holds.minIndex, keysFrom, keysFrom]
      split_ifs <;> first | rfl | omega

/-- **Decrypting the next message returns its plaintext**, and keeps what holds of an end. It does not return if the
message uses the last key. -/
theorem Side.decrypt (holds : Side setup side protocol mine theirs read) (lawful : setup.Lawful)
    (few : mine.length < 2 ^ 31) (few' : theirs.length < 2 ^ 31) {made : Made P} (next : theirs[read]? = some made)
    (letter : Letter setup (!side) theirs mine read made) (unused : deleted mine ≤ read) :
    (made.uses = 2 ^ 31 - 1 ∧ protocol.decrypt made.ciphertext = none) ∨ made.uses < 2 ^ 31 - 1 ∧
      ∃ after, protocol.decrypt made.ciphertext = some (.ok (some (after, made.plaintext))) ∧
        Side setup side after mine theirs (read + 1) := by
  obtain ⟨message, sent, isInt, brought, opens⟩ := holds.openMessage few letter
  have inside : read < theirs.length := (List.getElem?_eq_some_iff.mp next).1
  have taken : deleted (theirs.take (read + 1)) = max (deleted (theirs.take read)) made.uses := by
    rw [List.take_add_one, next, Option.toList_some, deleted_concat]
  rw [TwoPartyProtocol.decrypt, sent, lawful.messages _ isInt]
  dsimp only
  rw [opens]
  split
  · exact .inl ⟨‹_›, rfl⟩
  refine .inr ⟨by omega, ⟨none, none, none, keysFrom mine (deleted (theirs.take (read + 1))),
    deleted (theirs.take (read + 1)) + 1, protocol.nextIndex, some (P.generateKeyPair made.own).1, false, read + 1,
    some (P.generateKeyPair made.other).2⟩, ?_, ?_⟩
  · simp only [Option.map_some, bind, Except.bind, Made.inner, taken]
    rw [lawful.plaintexts _ ⟨by dsimp only; omega, by dsimp only; omega⟩]
    rfl
  · refine ⟨rfl, holds.nextIndex, rfl, inside, ?_, ?_, ?_, ?_, .read rfl next rfl rfl rfl unused⟩
    · rw [taken]
      exact max_le holds.brought brought
    · rw [taken]
      exact max_lt holds.small (by omega)
    · rintro ⟨⟩
    · rintro count last ⟨⟩ found
      rw [next] at found
      cases found
      rfl

end Ends

/-! ### Runs -/

/-- **What holds of a channel**, for the messages that its ends have made. -/
structure Channel.Sound (setup : Setup P) (channel : Channel P) (made : Bool → List (Made P)) : Prop where
  sent : ∀ side, channel.sent side = (made side).map fun message => (message.plaintext, message.ciphertext)
  letters : ∀ side number message, (made side)[number]? = some message →
    Letter setup side (made side) (made !side) number message
  uses : ∀ side, deleted (made side) ≤ channel.read !side
  ends : ∀ side, Side setup side (channel.ends side) (made side) (made !side) (channel.read !side)

namespace Channel

variable {setup : Setup P} {channel : Channel P} {made : Bool → List (Made P)}

theorem sound_new : (new setup).Sound setup fun _ => [] := by
  refine ⟨fun _ => rfl, fun _ _ _ found => (by cases found), fun _ => Nat.le_refl _, fun side => ?_⟩
  refine ⟨rfl, (wrap_of_isInt isInt_one).symm, funext fun index => ?_, Nat.le_refl _, Nat.le_refl _,
    by simp [deleted], fun _ => ⟨rfl, rfl, rfl⟩, nofun, .fresh rfl rfl rfl rfl rfl⟩
  simp [new, TwoPartyProtocol.new, keysFrom]

theorem forall_sides {claim : Bool → Prop} (side : Bool) (here : claim side) (there : claim !side) :
    ∀ other, claim other := by
  intro other
  rcases eq_or_ne other side with rfl | differs
  · exact here
  · rwa [Bool.eq_not_of_ne differs]

theorem Sound.length (sound : channel.Sound setup made) (side : Bool) :
    (made side).length = (channel.sent side).length := by
  rw [sound.sent, List.length_map]

theorem Sound.exists_made (sound : channel.Sound setup made) {side : Bool} {number : Nat}
    {plaintext ciphertext : P.Bytes} (sent : (channel.sent side)[number]? = some (plaintext, ciphertext)) :
    ∃ message, (made side)[number]? = some message ∧ message.plaintext = plaintext ∧
      message.ciphertext = ciphertext := by
  rw [sound.sent, List.getElem?_map, Option.map_eq_some_iff] at sent
  obtain ⟨message, found, same⟩ := sent
  exact ⟨message, found, Prod.mk.inj same⟩

theorem Sound.encrypt (sound : channel.Sound setup made) (lawful : setup.Lawful) {side : Bool}
    (few : (channel.sent side).length + 1 < 2 ^ 31) {plaintext ciphertext : P.Bytes} {draws : Draws P}
    {protocol : TwoPartyProtocol P}
    (encrypts : (channel.ends side).encrypt plaintext draws = .ok (protocol, ciphertext)) :
    ∃ message, Sound setup { channel with
        ends := Function.update channel.ends side protocol
        sent := Function.update channel.sent side (channel.sent side ++ [(plaintext, ciphertext)]) }
      (Function.update made side (made side ++ [message])) := by
  obtain ⟨message, rfl, rfl, seen, letter, after⟩ :=
    (sound.ends side).encrypt lawful (sound.length side ▸ few) encrypts
  have other : (!side) ≠ side := Bool.not_ne_self side
  refine ⟨message, forall_sides side ?_ ?_, forall_sides side ?_ ?_, forall_sides side ?_ ?_,
    forall_sides side ?_ ?_⟩
  all_goals
    simp only [Bool.not_not, Function.update_self, Function.update_of_ne other]
  · rw [sound.sent, List.map_append]
    rfl
  · exact sound.sent _
  · intro number earlier found
    rcases Nat.lt_or_ge number (made side).length with inside | last
    · rw [List.getElem?_append_left inside] at found
      exact (sound.letters side number earlier found).concat_mine inside.le message
    · obtain ⟨same, rfl⟩ : number = (made side).length ∧ message = earlier := by
        rw [List.getElem?_append_right last, List.getElem?_singleton] at found
        split at found
        · exact ⟨by omega, Option.some.inj found⟩
        · cases found
      rw [same]
      exact letter.concat_mine le_rfl message
  · intro number earlier found
    have kept := (sound.letters (!side) number earlier found).concat_theirs message
    rwa [Bool.not_not] at kept
  · rw [deleted_concat]
    exact max_le (sound.uses side) seen
  · have kept := sound.uses !side
    rwa [Bool.not_not] at kept
  · exact after
  · have kept := sound.ends !side
    rw [Bool.not_not] at kept
    exact kept.concat_theirs message

theorem Sound.next (sound : channel.Sound setup made) (lawful : setup.Lawful)
    (few : ∀ side, (channel.sent side).length < 2 ^ 31) {side : Bool} {message : Made P}
    (found : (made side)[channel.read side]? = some message) :
    (message.uses = 2 ^ 31 - 1 ∧ (channel.ends !side).decrypt message.ciphertext = none) ∨
      message.uses < 2 ^ 31 - 1 ∧
        ∃ after, (channel.ends !side).decrypt message.ciphertext = some (.ok (some (after, message.plaintext))) ∧
          Side setup (!side) after (made !side) (made side) (channel.read side + 1) := by
  have reader := sound.ends !side
  have unused := sound.uses !side
  rw [Bool.not_not] at reader unused
  refine reader.decrypt lawful (sound.length _ ▸ few _) (sound.length _ ▸ few _) found ?_ unused
  rw [Bool.not_not]
  exact sound.letters side _ _ found

theorem Sound.decrypt (sound : channel.Sound setup made) (lawful : setup.Lawful)
    (few : ∀ side, (channel.sent side).length < 2 ^ 31) {side : Bool} {plaintext ciphertext result : P.Bytes}
    {protocol : TwoPartyProtocol P}
    (next : (channel.sent side)[channel.read side]? = some (plaintext, ciphertext))
    (decrypts : (channel.ends !side).decrypt ciphertext = some (.ok (some (protocol, result)))) :
    Sound setup { channel with
        ends := Function.update channel.ends (!side) protocol
        read := Function.update channel.read side (channel.read side + 1) } made := by
  obtain ⟨message, found, rfl, rfl⟩ := sound.exists_made next
  obtain ⟨-, never⟩ | ⟨-, after, decrypts', holds⟩ := sound.next lawful few found
  · rw [never] at decrypts
    cases decrypts
  rw [decrypts'] at decrypts
  cases decrypts
  have other : (!side) ≠ side := Bool.not_ne_self side
  refine ⟨sound.sent, sound.letters, forall_sides side ?_ ?_, forall_sides side ?_ ?_⟩
  all_goals
    simp only [Bool.not_not, Function.update_self, Function.update_of_ne other, Function.update_of_ne other.symm]
  · exact sound.uses side
  · have kept := sound.uses !side
    rw [Bool.not_not] at kept
    exact kept.trans (Nat.le_succ _)
  · exact sound.ends side
  · exact holds

theorem Reachable.sound (reachable : Reachable setup channel) (lawful : setup.Lawful)
    (few : ∀ side, (channel.sent side).length < 2 ^ 31) : ∃ made, channel.Sound setup made := by
  induction reachable with
  | new => exact ⟨_, sound_new⟩
  | @encrypt channel side plaintext draws protocol ciphertext _ encrypts hyp =>
    have here := few side
    have there := few !side
    dsimp only at here there
    rw [Function.update_self, List.length_append, List.length_singleton] at here
    rw [Function.update_of_ne (Bool.not_ne_self side)] at there
    obtain ⟨made, sound⟩ := hyp (forall_sides side (by omega) there)
    exact (sound.encrypt lawful here encrypts).imp' _ fun _ after => after
  | decrypt _ next decrypts hyp =>
    obtain ⟨made, sound⟩ := hyp few
    exact ⟨made, sound.decrypt lawful few next decrypts⟩

/-- **The channel decrypts under any interleaving.** However the two ends have encrypted, fewer than 2³¹ - 1 messages
each, and decrypted the messages of each direction in order, the next message of a side is decrypted to its plaintext.
Of the keys of an end, those up to the one that a decrypted message names are gone. -/
theorem Reachable.decrypts_in_order (reachable : Reachable setup channel) (lawful : setup.Lawful)
    (few : ∀ side, (channel.sent side).length < 2 ^ 31 - 1) (side : Bool) :
    (∀ plaintext ciphertext, (channel.sent side)[channel.read side]? = some (plaintext, ciphertext) →
      ∃ after, (channel.ends !side).decrypt ciphertext = some (.ok (some (after, plaintext)))) ∧
    ∀ number < channel.read side, ∃ plaintext ciphertext message,
      (channel.sent side)[number]? = some (plaintext, ciphertext) ∧
      P.deserializeMessage ciphertext = some message ∧
      (message.senderOtherPkSender = false → ∀ index ≤ message.receiverPkIndex,
        (channel.ends !side).mySks index = none) := by
  have fewer : ∀ side, (channel.sent side).length < 2 ^ 31 := fun side => (few side).trans (by decide)
  obtain ⟨made, sound⟩ := reachable.sound lawful fewer
  constructor
  · intro plaintext ciphertext next
    obtain ⟨message, found, rfl, rfl⟩ := sound.exists_made next
    obtain ⟨last, -⟩ | ⟨-, after, decrypts, -⟩ := sound.next lawful fewer found
    · -- The other end has not made the key that the last `int` names.
      have used := uses_le_deleted (List.mem_of_getElem? found)
      have brought := (sound.uses side).trans (sound.ends side).seen
      have fewKeys := few !side
      rw [← sound.length] at fewKeys
      omega
    · exact ⟨after, decrypts⟩
  · intro number before
    have reader := sound.ends !side
    rw [Bool.not_not] at reader
    have inside : number < (made side).length := before.trans_le reader.seen
    have found : (made side)[number]? = some (made side)[number] := List.getElem?_eq_getElem inside
    obtain ⟨message, sent, isInt, named⟩ :=
      (sound.letters side number _ found).header (sound.length _ ▸ fewer _)
    refine ⟨_, _, message, by rw [sound.sent, List.getElem?_map, found]; rfl, ?_, fun own index below => ?_⟩
    · rw [sent, lawful.messages _ isInt]
    · have used : (made side)[number].uses ≤ deleted ((made side).take (channel.read side)) :=
        uses_le_deleted (List.mem_take_iff_getElem.mpr ⟨number, by omega, rfl⟩)
      rw [named own] at below
      rw [reader.mySks, keysFrom, if_neg (by omega)]

/-- **An end keeps exactly the keys that may still be used.** In every run in which neither end has made 2³¹ - 1
messages, the keys of an end are those of its messages from `minIndex` on, one for each. -/
theorem Reachable.keeps_unused_keys (reachable : Reachable setup channel) (lawful : setup.Lawful)
    (few : ∀ side, (channel.sent side).length < 2 ^ 31 - 1) (side : Bool) :
    (channel.ends side).nextIndex = (channel.sent side).length + 1 ∧
      1 ≤ (channel.ends side).minIndex ∧ (channel.ends side).minIndex ≤ (channel.ends side).nextIndex ∧
      ∀ index, ((channel.ends side).mySks index).isSome ↔
        (channel.ends side).minIndex ≤ index ∧ index < (channel.ends side).nextIndex := by
  obtain ⟨made, sound⟩ := reachable.sound lawful fun side => (few side).trans (by decide)
  have holds := sound.ends side
  have brought := holds.brought
  have here := few side
  rw [← sound.length side] at here ⊢
  rw [holds.nextIndex, holds.minIndex, wrap_of_isInt ⟨by omega, by omega⟩]
  refine ⟨rfl, by omega, by omega, fun index => ?_⟩
  rw [holds.mySks, keysFrom]
  split
  · rw [Option.isSome_map, isSome_getElem?]
    omega
  · simp only [Option.isSome_none, Bool.false_eq_true, false_iff]
    omega

/-- **How an end begins**, however many messages there are: it has no key of the other before it has made or read a
message, and its prekeys before it has read one. -/
structure Opening (setup : Setup P) (side : Bool) (protocol : TwoPartyProtocol P) (made read : Nat) : Prop where
  otherPk : protocol.otherPk = none ↔ made = 0 ∧ read = 0
  nextIndex : made = 0 → protocol.nextIndex = 1
  preKeys : read = 0 → protocol.preKeySecret = some (setup.secret side) ∧
    protocol.preKeySource = some (setup.source side) ∧ protocol.peer = some (setup.identity !side)

theorem Reachable.opening (reachable : Reachable setup channel) :
    ∀ side, Opening setup side (channel.ends side) (channel.sent side).length (channel.read !side) := by
  induction reachable with
  | new => exact fun side => ⟨iff_of_true rfl ⟨rfl, rfl⟩, fun _ => rfl, fun _ => ⟨rfl, rfl, rfl⟩⟩
  | @encrypt channel side plaintext draws protocol ciphertext _ encrypts hyp =>
    obtain ⟨body, -, result⟩ := except_bind_ok_iff.mp encrypts
    cases result
    refine forall_sides side ?_ ?_
    · simp only [Function.update_self, List.length_append, List.length_singleton]
      exact ⟨iff_of_false nofun (by simp), fun none => by simp at none, (hyp side).preKeys⟩
    · simp only [Function.update_of_ne (Bool.not_ne_self side)]
      exact hyp !side
  | @decrypt channel side plaintext ciphertext result protocol _ next decrypts hyp =>
    refine forall_sides side ?_ ?_
    · have other : side ≠ !side := (Bool.not_ne_self side).symm
      simp only [Function.update_of_ne other, Function.update_of_ne other.symm]
      exact hyp side
    · simp only [Function.update_self, Bool.not_not]
      obtain ⟨nextIndex, otherPk⟩ := TwoPartyProtocol.decrypt_frame decrypts
      exact ⟨iff_of_false otherPk (by simp), fun none => nextIndex ▸ (hyp !side).nextIndex none,
        fun none => by simp at none⟩

/-- **Only a first message can fail to be encrypted**, and only because of a prekey: the prekey secret that is erased
after the first message that was decrypted is not read again. -/
theorem Reachable.encrypt_fails_iff (reachable : Reachable setup channel) (side : Bool)
    (plaintext : P.Bytes) (draws : Draws P) (exc : Exc) :
    (channel.ends side).encrypt plaintext draws = .error exc ↔
      channel.sent side = [] ∧ channel.read (!side) = 0 ∧
        (P.getPreKey (setup.source side) (setup.identity !side) draws.source = .error exc ∨
          ∃ preKey, P.getPreKey (setup.source side) (setup.identity !side) draws.source = .ok preKey ∧
            P.preKeyEncrypt (setup.secret side) (P.serializePlaintext ⟨plaintext, (P.generateKeyPair draws.other).2, 1,
              (P.generateKeyPair draws.mine).1⟩) preKey draws.cipher = .error exc) := by
  have holds := reachable.opening side
  rw [TwoPartyProtocol.encrypt, TwoPartyProtocol.encryptToOther]
  cases known : (channel.ends side).otherPk with
  | none =>
    obtain ⟨none_made, none_read⟩ := holds.otherPk.mp known
    obtain ⟨secret, source, peer⟩ := holds.preKeys none_read
    rw [TwoPartyProtocol.encryptFirst, secret, source, peer, holds.nextIndex none_made,
      and_iff_right (List.eq_nil_of_length_eq_zero none_made), and_iff_right none_read]
    dsimp only
    cases P.getPreKey (setup.source side) (setup.identity !side) draws.source with
    | error exc' => simp [bind, Except.bind]
    | ok preKey =>
      simp only [bind, Except.bind, reduceCtorEq, false_or, Except.ok.injEq, exists_eq_left']
      cases P.preKeyEncrypt (setup.secret side) _ preKey draws.cipher <;> simp [pure, Except.pure]
  | some otherPk =>
    refine iff_of_false (by simp [bind, Except.bind, pure, Except.pure]) fun first => ?_
    rw [holds.otherPk.mpr ⟨List.length_eq_zero_iff.mpr first.1, first.2.1⟩] at known
    cases known

end Channel

/-! ### A run with crossing messages -/

namespace Channel.Sample

/-- Terms in place of bytes, with numbers for keys. -/
inductive Term
  | text (number : Nat)
  | plaintext (app : Term) (secretKey : Nat) (index : Int) (publicKey : Nat)
  | message (ciphertext : Term) (flag : Bool) (index : Int)
  | sealed (key : Nat) (body : Term)
deriving DecidableEq

def Term.open (key : Nat) : Term → Option Term
  | .sealed other body => if other = key then some body else none
  | _ => none

/-- A pair is one number; the prekey and the identity of a client are another. -/
def primitives : Primitives where
  Bytes := Term
  PublicKey := Nat
  SecretKey := Nat
  Seed := Nat
  IdentityKey := Nat
  PreKey := Nat
  PreKeySecret := Nat
  PreKeySource := Unit
  generateKeyPair seed := (seed, seed)
  encrypt key body _ := .sealed key body
  decrypt key ciphertext := ciphertext.open key
  getPreKey _ peer _ := .ok peer
  preKeyEncrypt _ body preKey _ := .ok (.sealed preKey body)
  preKeyDecrypt secret ciphertext _ := (ciphertext.open secret).map fun body => (secret, body)
  serializePlaintext plaintext :=
    .plaintext plaintext.appPlaintext plaintext.receiverNewSk plaintext.senderNewPkIndex plaintext.senderNewPk
  deserializePlaintext
    | .plaintext app secretKey index publicKey => some ⟨app, secretKey, index, publicKey⟩
    | _ => none
  serializeMessage message := .message message.ciphertext message.senderOtherPkSender message.receiverPkIndex
  deserializeMessage
    | .message ciphertext flag index => some ⟨ciphertext, flag, index⟩
    | _ => none

def clients : Setup primitives := ⟨Bool.toNat, fun _ => (), Bool.toNat⟩

theorem clients_lawful : clients.Lawful where
  hpke _ _ _ := if_pos rfl
  preKeys side _ _ plaintext _ _ drawn sealed := by
    cases drawn
    cases sealed
    have opens : Term.open (!side).toNat (.sealed (!side).toNat plaintext) = some plaintext := if_pos rfl
    exact ⟨(!side).toNat, congrArg (Option.map _) opens⟩
  plaintexts _ _ := rfl
  messages _ _ := rfl

def draws (seed : Nat) : Draws primitives := ⟨seed, seed + 1, seed, seed⟩

/-- Both ends start with a prekey message, read the other's, and one of them writes twice. -/
theorem crossing_decrypts : ∃ channel : Channel primitives, channel.Reachable clients ∧ channel.read true = 1 ∧
    ∃ ciphertext, (channel.sent true)[1]? = some (.text 3, ciphertext) ∧
      ∃ after, (channel.ends false).decrypt ciphertext = some (.ok (some (after, .text 3))) := by
  have first := @Reachable.encrypt _ clients _ false (.text 1) (draws 10) _ _ .new rfl
  have second := @Reachable.encrypt _ clients _ true (.text 2) (draws 20) _ _ first rfl
  have third := @Reachable.decrypt _ clients _ false _ _ _ _ second rfl rfl
  have fourth := @Reachable.encrypt _ clients _ true (.text 3) (draws 30) _ _ third rfl
  have fifth := @Reachable.encrypt _ clients _ true (.text 4) (draws 40) _ _ fourth rfl
  have sixth := @Reachable.decrypt _ clients _ true _ _ _ _ fifth rfl rfl
  exact ⟨_, sixth, rfl, _, rfl, (sixth.decrypts_in_order clients_lawful (by decide) true).1 _ _ rfl⟩

/-- A client encrypts twice, and the other answers the first message: its key is deleted, and that of the second one is
kept. -/
theorem key_kept_for_answer : ∃ channel : Channel primitives, channel.Reachable clients ∧ channel.read true = 1 ∧
    (channel.ends false).mySks 1 = none ∧ ((channel.ends false).mySks 2).isSome := by
  have first := @Reachable.encrypt _ clients _ false (.text 1) (draws 10) _ _ .new rfl
  have second := @Reachable.decrypt _ clients _ false _ _ _ _ first rfl rfl
  have third := @Reachable.encrypt _ clients _ true (.text 2) (draws 20) _ _ second rfl
  have fourth := @Reachable.encrypt _ clients _ false (.text 3) (draws 30) _ _ third rfl
  have fifth := @Reachable.decrypt _ clients _ true _ _ _ _ fourth rfl rfl
  have keys := (fifth.keeps_unused_keys clients_lawful (by decide) false).2.2.2
  exact ⟨_, fifth, rfl, Option.not_isSome_iff_eq_none.mp fun kept => absurd ((keys 1).mp kept).1 (by decide),
    (keys 2).mpr ⟨by decide, by decide⟩⟩

theorem answer_is_encrypted : ∃ channel : Channel primitives, channel.Reachable clients ∧
    ∀ exc, (channel.ends true).encrypt (.text 2) (draws 20) ≠ .error exc := by
  have first := @Reachable.encrypt _ clients _ false (.text 1) (draws 10) _ _ .new rfl
  have second := @Reachable.decrypt _ clients _ false _ _ _ _ first rfl rfl
  refine ⟨_, second, fun exc fails => ?_⟩
  cases ((second.encrypt_fails_iff true _ _ exc).mp fails).2.1

/-! ### A run with too many messages -/

theorem encrypts {channel : Channel primitives} (reachable : channel.Reachable clients) (side : Bool) :
    ∃ protocol ciphertext, (channel.ends side).encrypt (.text 0) (draws 0) = .ok (protocol, ciphertext) := by
  have holds := reachable.opening side
  have sealed (body : primitives.Bytes) : ∃ sealed, (channel.ends side).encryptToOther body (draws 0) = .ok sealed := by
    unfold TwoPartyProtocol.encryptToOther
    cases known : (channel.ends side).otherPk with
    | none =>
      obtain ⟨secret, source, peer⟩ := holds.preKeys (holds.otherPk.mp known).2
      rw [TwoPartyProtocol.encryptFirst, secret, source, peer]
      exact ⟨_, rfl⟩
    | some otherPk => exact ⟨_, rfl⟩
  obtain ⟨body, returns⟩ := sealed _
  exact ⟨_, _, except_bind_ok_iff.mpr ⟨body, returns, rfl⟩⟩

theorem few_sent {channel : Channel primitives} (one : (channel.sent false).length < 2 ^ 31)
    (other : (channel.sent true).length < 2 ^ 31) : ∀ side, (channel.sent side).length < 2 ^ 31 :=
  forall_sides false one other

/-- One client encrypts `count` messages, and the other decrypts each. -/
theorem exists_oneSided (count : Nat) (few : count < 2 ^ 31) : ∃ channel : Channel primitives,
    channel.Reachable clients ∧ (channel.sent false).length = count ∧ channel.sent true = [] ∧
      channel.read false = count ∧ channel.read true = 0 := by
  induction count with
  | zero => exact ⟨_, .new, rfl, rfl, rfl, rfl⟩
  | succ count ih =>
    obtain ⟨channel, reachable, sent, none_sent, read, none_read⟩ := ih (by omega)
    obtain ⟨protocol, ciphertext, encrypts⟩ := encrypts reachable false
    have next := reachable.encrypt encrypts
    revert next
    generalize made_channel : Channel.mk _ _ _ = channel'
    intro next
    have sent' : channel'.sent false = channel.sent false ++ [(.text 0, ciphertext)] := by simp [← made_channel]
    have none_sent' : channel'.sent true = [] := by simp [← made_channel, none_sent]
    have read' : channel'.read = channel.read := by simp [← made_channel]
    have few' := few_sent (by rw [sent', List.length_append, sent]; exact few) (by rw [none_sent']; decide)
    obtain ⟨made, sound⟩ := next.sound clients_lawful few'
    have last : (channel'.sent false)[channel'.read false]? = some (.text 0, ciphertext) := by
      rw [sent', read', read, ← sent]
      simp
    obtain ⟨message, found, -, rfl⟩ := sound.exists_made last
    -- The other has sent nothing, so no message of the one uses a key of theirs.
    have unused : message.uses ≤ 0 := (uses_le_deleted (List.mem_of_getElem? found)).trans
      ((sound.uses false).trans (by rw [read']; exact none_read.le))
    obtain ⟨much, -⟩ | ⟨-, after, decrypts, -⟩ := sound.next clients_lawful few' found
    · omega
    refine ⟨_, next.decrypt last decrypts, ?_, none_sent', ?_, ?_⟩
    · dsimp only
      rw [sent', List.length_append, sent]
      rfl
    · simp [read', read]
    · simp [read', none_read]

/-- **The answer to the message with the last number is never decrypted.** -/
theorem last_key_never_decrypts : ∃ channel : Channel primitives, channel.Reachable clients ∧
    (channel.sent false).length = 2 ^ 31 - 1 ∧ (channel.sent true).length = 1 ∧
      ∃ plaintext ciphertext, (channel.sent true)[channel.read true]? = some (plaintext, ciphertext) ∧
        (channel.ends false).decrypt ciphertext = none := by
  obtain ⟨channel, reachable, sent, none_sent, read, none_read⟩ := exists_oneSided (2 ^ 31 - 1) (by decide)
  obtain ⟨protocol, ciphertext, encrypts⟩ := encrypts reachable true
  have next := reachable.encrypt encrypts
  -- The answer names the key of the last message that was read.
  obtain ⟨flag, index⟩ : (channel.ends true).amIOtherPkSender = false ∧
      (channel.ends true).otherPkIndex = 2 ^ 31 - 1 := by
    obtain ⟨made, sound⟩ := reachable.sound clients_lawful
      (few_sent (by rw [sent]; decide) (by rw [none_sent]; decide))
    have none_made := sound.length true
    rw [none_sent] at none_made
    cases (sound.ends true).standing with
    | fresh _ none_read => rw [Bool.not_true, read] at none_read; omega
    | made length => rw [none_made] at length; cases length
    | read length found otherPk flag index => rw [Bool.not_true, read] at length; exact ⟨flag, by omega⟩
  obtain ⟨body, -, result⟩ := except_bind_ok_iff.mp encrypts
  rw [flag, index] at result
  revert next
  generalize made_channel : Channel.mk _ _ _ = channel'
  intro next
  have sent' : channel'.sent true = [(.text 0, ciphertext)] := by simp [← made_channel, none_sent]
  have sent'' : (channel'.sent false).length = 2 ^ 31 - 1 := by simp [← made_channel, sent]
  have read' : channel'.read true = 0 := by simp [← made_channel, none_read]
  have few' := few_sent (by rw [sent'']; decide) (by simp [sent'])
  obtain ⟨made, sound⟩ := next.sound clients_lawful few'
  have first : (channel'.sent true)[channel'.read true]? = some (.text 0, ciphertext) := by rw [sent', read']; rfl
  refine ⟨channel', next, sent'', by rw [sent']; rfl, _, _, first, ?_⟩
  obtain ⟨message, found, -, rfl⟩ := sound.exists_made first
  obtain ⟨header, same, -, named⟩ := (sound.letters true _ _ found).header (sound.length _ ▸ few' _)
  have sealed : primitives.serializeMessage ⟨body, false, 2 ^ 31 - 1⟩ = primitives.serializeMessage header :=
    (congrArg Prod.snd (Except.ok.inj result)).trans same
  obtain ⟨-, flag', index'⟩ := Term.message.inj sealed
  have uses : (2 ^ 31 - 1 : Int) = message.uses := index'.trans (named flag'.symm)
  obtain ⟨-, never⟩ | ⟨less, -⟩ := sound.next clients_lawful few' found
  · exact never
  · omega

end Channel.Sample

end KeyhiveEval.Dcgka
