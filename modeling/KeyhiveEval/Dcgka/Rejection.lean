/-
**Refused messages.**

A client that refuses a message goes on with its old state, and so does a client that a message has removed. But the
`StrongRemoveDgm` of that state is the object on which the handlers of adds, removes and acknowledgements have already
worked when something after that throws.

* `touches` — the messages for which a handler changes the object: an add by a known user, a remove of one, and the
  first acknowledgement of a known add or remove by another client.
* `final_handle` — the state in which a handler leaves the object.
* `refuses_iff` — the object of the old state is as it was exactly if the message was refused before its handler, or is
  none of these.
* `receive_refused_iff` — the same for the client that `receive` goes on with.
-/

import KeyhiveEval.Dcgka.ModularDsgm
import KeyhiveEval.Dcgka.Secrets

namespace KeyhiveEval.Dcgka

open Stateful

variable {Id Bytes Channel Cipher SignatureState EncryptionState : Type} [LinearOrder Id]

/-! ### The methods of the group -/

namespace StrongRemoveDgm

open MemberInfo

/-- A user acknowledges an add or remove that is known, and has not done so before. -/
def acksAnew (dgm : StrongRemoveDgm Id) (acker : Id) (messageId : MessageId Id) : Bool :=
  match (dgm.addedBy messageId).bind dgm.info, dgm.removesById messageId with
  | some add, _ => acker ∉ add.acks
  | none, some remove => acker ∉ remove.acks
  | none, none => false

theorem MemberInfo.addAck_ne {info : MemberInfo Id} {acker : Id} (new : acker ∉ info.acks) :
    info.addAck acker ≠ info := by
  intro same
  have acks : insert acker info.acks = info.acks := congrArg MemberInfo.acks same
  exact new (acks ▸ Finset.mem_insert_self acker info.acks)

theorem update_ne {infos : List (MemberInfo Id)} {info : MemberInfo Id} {change : MemberInfo Id → MemberInfo Id}
    (here : info ∈ infos) (changes : change info ≠ info) : update infos info.id change ≠ infos := by
  intro same
  have fixed := List.map_eq_map_iff.mp (same.trans (List.map_id infos).symm) info here
  rw [if_pos rfl] at fixed
  exact changes fixed

theorem mem_of_info {dgm : StrongRemoveDgm Id} {user : Id} {info : MemberInfo Id} (isInfo : dgm.info user = some info) :
    info ∈ dgm.members ∨ info ∈ dgm.removedMembers := by
  rcases Option.or_eq_some_iff.mp isInfo with found | ⟨-, found⟩
  · exact .inl (List.mem_of_find?_eq_some found)
  · exact .inr (List.mem_of_find?_eq_some found)

/-- What an `add` with a new number leaves behind, also if it throws. -/
theorem final_add_eq_iff (dgm : StrongRemoveDgm Id) (adder added : Id) {messageId : MessageId Id}
    (fresh : dgm.isAdd messageId = false) :
    final (add adder added messageId dgm) = dgm ↔ dgm.info adder = none := by
  -- The number is noted with the added user.
  have changes (mid : StrongRemoveDgm Id) : mid.inheritAcks adder added messageId ≠ dgm := by
    rintro rfl
    simp [isAdd, addedBy, inheritAcks] at fresh
  have knows : dgm.info adder = (find dgm.members adder).or (find dgm.removedMembers adder) := rfl
  unfold add
  rw [knows, get_bind_apply]
  split
  · rename_i isMember
    exact iff_of_false (changes _) fun unknown => by simp [(Option.or_eq_none_iff.mp unknown).1] at isMember
  · rename_i noMember
    rw [Option.not_isSome_iff_eq_none.mp noMember, Option.none_or]
    cases find dgm.removedMembers adder with
    | none => exact iff_of_true rfl rfl
    | some adderInfo => exact iff_of_false (changes _) (by simp)

/-- What `ack` leaves behind, also if it throws. -/
theorem final_ack_eq_iff (dgm : StrongRemoveDgm Id) (acker : Id) (messageId : MessageId Id) :
    final (ack acker messageId dgm) = dgm ↔ dgm.acksAnew acker messageId = false := by
  unfold ack acksAnew
  rw [get_bind_apply]
  cases isAdd : (dgm.addedBy messageId).bind dgm.info with
  | some add =>
    by_cases old : acker ∈ add.acks
    · simp only [old, if_true, not_true, decide_false, iff_true]
      split <;> rfl
    · simp only [old, if_false, not_false_eq_true, decide_true, reduceCtorEq, iff_false]
      intro same
      obtain ⟨user, -, isInfo⟩ := Option.bind_eq_some_iff.mp isAdd
      rcases mem_of_info isInfo with here | here
      · exact update_ne here (MemberInfo.addAck_ne old) (congrArg members same)
      · exact update_ne here (MemberInfo.addAck_ne old) (congrArg removedMembers same)
  | none =>
    cases isRemove : dgm.removesById messageId with
    | none => simp only [iff_true]; rfl
    | some remove =>
      by_cases old : acker ∈ remove.acks
      · simp only [old, if_true, not_true, decide_false, iff_true]
        rfl
      · simp only [old, if_false, not_false_eq_true, decide_true, reduceCtorEq, iff_false]
        have changed (same : Function.update dgm.removesById messageId (some (remove.addAck acker))
            = dgm.removesById) : False := by
          have atMessage := congrFun same messageId
          rw [Function.update_self, isRemove] at atMessage
          have acks : insert acker remove.acks = remove.acks :=
            congrArg RemoveInfo.acks (Option.some.inj atMessage)
          exact old (acks ▸ Finset.mem_insert_self acker remove.acks)
        split
        · exact fun same => changed (congrArg removesById same)
        · exact fun same => changed (congrArg removesById same)

/-- A user is no member, and has more than a number of remove messages. -/
structure Outside (user : Id) (number : Nat) (members removedMembers : List (MemberInfo Id)) : Prop where
  members : ∀ info ∈ members, info.id ≠ user
  removed : ∀ info ∈ removedMembers, info.id = user → number < info.removeMessages.length

section Outside

variable {removal : Removal Id} {user : Id} {number : Nat} {sweep : Sweep Id}

theorem Outside.sweepMember (outside : Outside user number sweep.members sweep.removedMembers)
    {info : MemberInfo Id} (other : info.id ≠ user) :
    Outside user number (removal.sweepMember sweep info).members (removal.sweepMember sweep info).removedMembers := by
  unfold Removal.sweepMember
  split
  · refine ⟨outside.members, fun entry here isUser => ?_⟩
    rcases mem_put.mp here with ⟨old, -⟩ | rfl
    · exact outside.removed entry old isUser
    · exact absurd isUser other
  · refine ⟨fun entry here => ?_, outside.removed⟩
    rcases List.mem_append.mp here with old | new
    · exact outside.members entry old
    · rwa [List.mem_singleton.mp new]

omit [LinearOrder Id] in
theorem length_lt_credit (info : MemberInfo Id) (messageId : MessageId Id) :
    info.removeMessages.length < (info.credit messageId).removeMessages.length := by
  simp [credit]

theorem Outside.sweepRemoved (outside : Outside user number sweep.members sweep.removedMembers)
    {info : MemberInfo Id} (enough : info.id = user → number < info.removeMessages.length) :
    Outside user number (removal.sweepRemoved sweep info).members (removal.sweepRemoved sweep info).removedMembers := by
  unfold Removal.sweepRemoved
  split
  · refine ⟨outside.members, fun entry here isUser => ?_⟩
    rcases List.mem_append.mp here with old | new
    · exact outside.removed entry old isUser
    · obtain rfl := List.mem_singleton.mp new
      exact (enough isUser).trans (length_lt_credit info removal.messageId)
  · refine ⟨outside.members, fun entry here isUser => ?_⟩
    rcases List.mem_append.mp here with old | new
    · exact outside.removed entry old isUser
    · rw [List.mem_singleton.mp new] at isUser ⊢
      exact enough isUser

theorem Outside.pass (outside : Outside user number sweep.members sweep.removedMembers) :
    Outside user number (removal.pass sweep).members (removal.pass sweep).removedMembers := by
  let Good (sweep : Sweep Id) : Prop := Outside user number sweep.members sweep.removedMembers
  have first : Good (sweep.members.foldl removal.sweepMember { sweep with members := [], madeProgress := false }) := by
    refine List.foldlRecOn (motive := Good) _ _ ⟨by simp, outside.removed⟩ ?_
    exact fun _ ih info here => Outside.sweepMember ih (outside.members info here)
  refine List.foldlRecOn (motive := Good) _ _ ⟨first.members, by simp⟩ ?_
  exact fun _ ih info here => Outside.sweepRemoved ih (first.removed info here)

theorem Outside.passes (outside : Outside user number sweep.members sweep.removedMembers) (fuel : Nat) :
    Outside user number (removal.passes fuel sweep).members (removal.passes fuel sweep).removedMembers := by
  induction fuel generalizing sweep with
  | zero => exact outside
  | succ fuel ih =>
    unfold Removal.passes
    dsimp only
    split
    · exact ih outside.pass
    · exact outside.pass

/-- The loop of `remove` keeps what its first part has done to the target. -/
theorem Outside.remove {dgm marked : StrongRemoveDgm Id} {remover : Id} {messageId : MessageId Id}
    {returnValue : List Id} (marks : markRemoved messageId [] user dgm = .ok returnValue marked)
    (outside : Outside user number marked.members marked.removedMembers) :
    Outside user number (final (StrongRemoveDgm.remove remover [user] messageId dgm)).members
      (final (StrongRemoveDgm.remove remover [user] messageId dgm)).removedMembers := by
  have marksAll : [user].foldlM (markRemoved messageId) [] dgm = .ok returnValue marked := by
    rw [List.foldlM_cons]
    exact bind_ok_iff.mpr ⟨returnValue, marked, marks, rfl⟩
  have removes : ∃ returned dgm', StrongRemoveDgm.remove remover [user] messageId dgm = .ok returned dgm' ∧
      Outside user number dgm'.members dgm'.removedMembers :=
    ⟨_, _, bind_ok_iff.mpr ⟨returnValue, marked, marksAll, rfl⟩, outside.passes _⟩
  obtain ⟨returned, dgm', isOk, rest⟩ := removes
  rw [isOk]
  exact rest

end Outside

/-- The fewest remove messages that an entry of a removed user has. -/
theorem exists_fewest {infos : List (MemberInfo Id)} {user : Id} (isRemoved : find infos user ≠ none) :
    ∃ info ∈ infos, info.id = user ∧
      ∀ other ∈ infos, other.id = user → info.removeMessages.length ≤ other.removeMessages.length := by
  obtain ⟨found, isFound⟩ := Option.ne_none_iff_exists'.mp isRemoved
  have isUser : found.id = user := by simpa using List.find?_some isFound
  obtain ⟨info, isInfo, fewest⟩ := Finset.exists_min_image (infos.toFinset.filter fun info => info.id = user)
    (fun info => info.removeMessages.length)
    ⟨found, Finset.mem_filter.mpr ⟨List.mem_toFinset.mpr (List.mem_of_find?_eq_some isFound), isUser⟩⟩
  obtain ⟨here, same⟩ := Finset.mem_filter.mp isInfo
  exact ⟨info, List.mem_toFinset.mp here, same, fun other there same' =>
    fewest other (Finset.mem_filter.mpr ⟨List.mem_toFinset.mpr there, same'⟩)⟩

/-! The three things that `remove` can do to a target. -/

section MarkRemoved

variable {dgm : StrongRemoveDgm Id} {messageId : MessageId Id} {target : Id}

theorem markRemoved_of_member {memberInfo : MemberInfo Id} (isMember : find dgm.members target = some memberInfo) :
    markRemoved messageId [] target dgm = .ok [target] { dgm with
      members := minus dgm.members target
      removedMembers := put dgm.removedMembers (memberInfo.credit messageId) } := by
  unfold markRemoved
  rw [get_bind_apply]
  rw [isMember]
  rfl

theorem markRemoved_of_removed {info : MemberInfo Id} (noMember : find dgm.members target = none)
    (isRemoved : find dgm.removedMembers target = some info) :
    markRemoved messageId [] target dgm = .ok [] { dgm with
      removedMembers := update dgm.removedMembers target fun info => info.credit messageId } := by
  unfold markRemoved
  rw [get_bind_apply]
  rw [noMember]
  simp only [isRemoved]
  rfl

theorem markRemoved_of_unknown (noMember : find dgm.members target = none)
    (notRemoved : find dgm.removedMembers target = none) :
    markRemoved messageId [] target dgm = .error (.illegalArgument "Unrecognized target of removal") dgm := by
  unfold markRemoved
  rw [get_bind_apply]
  rw [noMember]
  simp only [notRemoved]
  rfl

end MarkRemoved

/-- What `remove` leaves behind for one user, also if it throws. -/
theorem final_remove_eq_iff (dgm : StrongRemoveDgm Id) (remover removed : Id) (messageId : MessageId Id) :
    final (remove remover [removed] messageId dgm) = dgm ↔ dgm.info removed = none := by
  unfold info
  cases isMember : find dgm.members removed with
  | some memberInfo =>
    simp only [Option.some_or, reduceCtorEq, iff_false]
    intro same
    obtain ⟨here, isUser⟩ := find_eq_some isMember
    have outside : Outside removed 0 (minus dgm.members removed)
        (put dgm.removedMembers (memberInfo.credit messageId)) := by
      refine ⟨fun info here => (mem_minus.mp here).2, fun info here same => ?_⟩
      rcases mem_put.mp here with ⟨-, other⟩ | rfl
      · exact absurd (same.trans isUser.symm) other
      · exact Nat.zero_lt_of_lt (length_lt_credit memberInfo messageId)
    -- the target is no member any more
    have gone : Outside removed 0 (final (remove remover [removed] messageId dgm)).members _ :=
      Outside.remove (markRemoved_of_member isMember) outside
    rw [same] at gone
    exact gone.members memberInfo here isUser
  | none =>
    cases isRemoved : find dgm.removedMembers removed with
    | none =>
      simp only [Option.or_none, iff_true]
      have throws : [removed].foldlM (markRemoved messageId) [] dgm
          = .error (.illegalArgument "Unrecognized target of removal") dgm := by
        rw [List.foldlM_cons]
        show EStateM.bind (markRemoved messageId [] removed) _ dgm = _
        unfold EStateM.bind
        rw [markRemoved_of_unknown isMember isRemoved]
      show final (EStateM.bind ([removed].foldlM (markRemoved messageId) []) _ dgm) = dgm
      unfold EStateM.bind
      rw [throws]
      rfl
    | some removedInfo =>
      simp only [Option.none_or, reduceCtorEq, iff_false]
      intro same
      obtain ⟨fewest, here, isUser, least⟩ :=
        exists_fewest (show find dgm.removedMembers removed ≠ none by simp [isRemoved])
      have outside : Outside removed fewest.removeMessages.length dgm.members
          (update dgm.removedMembers removed fun info => info.credit messageId) := by
        refine ⟨find_eq_none.mp isMember, fun info there same => ?_⟩
        obtain ⟨before, was, rfl⟩ := List.mem_map.mp there
        by_cases isTarget : before.id = removed
        · rw [if_pos isTarget]
          exact (least before was isTarget).trans_lt (length_lt_credit before messageId)
        · rw [if_neg isTarget] at same
          exact absurd same isTarget
      -- the target has one more remove message
      have more : Outside removed fewest.removeMessages.length _
          (final (remove remover [removed] messageId dgm)).removedMembers :=
        Outside.remove (markRemoved_of_removed isMember isRemoved) outside
      rw [same] at more
      exact absurd (more.removed fewest here isUser) (Nat.lt_irrefl _)

end StrongRemoveDgm

/-! ### The handlers -/

namespace FullDcgka

variable {crypto : Crypto Id Bytes Channel Cipher} {state : State Id Bytes Channel}
  {message : FullDcgkaMessage Id Cipher} {sender : Id} {causalInfo : Timestamp Id} {secret : Bytes}

/-- The messages whose handler changes the object. -/
def touches (dgm : StrongRemoveDgm Id) (id : Id) (message : FullDcgkaMessage Id Cipher) (sender : Id)
    (causalInfo : Timestamp Id) : Bool :=
  match message with
  | .add _ => (dgm.info sender).isSome
  | .remove _ removed => (dgm.info removed).isSome
  | .ack _ | .ackWithUpdate _ _ | .addAck _ =>
    sender ≠ id && causalInfo.ackedMessageId.any fun acked => dgm.acksAnew sender acked
  | _ => false

variable {ciphertexts : List Cipher}

theorem reads_processCreate {ids : List Id} :
    Reads (processCreate crypto state ciphertexts ids sender causalInfo) := by
  unfold processCreate
  dsimp only
  split
  · exact reads_throw
  · exact reads_ofExcept.bind fun _ => reads_pure

theorem reads_processUpdate :
    Reads (processUpdate crypto state ciphertexts sender causalInfo) :=
  reads_get.bind fun _ => reads_ofExcept.bind fun _ => reads_pure

variable {prfForAdded : Cipher}

theorem reads_processWelcome {copy : StrongRemoveDgm Id} :
    Reads (processWelcome crypto state copy prfForAdded sender causalInfo) :=
  reads_ofExcept.bind fun _ => reads_ofExcept.bind fun _ => reads_pure

variable {dgm : StrongRemoveDgm Id}

theorem isAdd_or_isRemove_of_acksAnew {acked : MessageId Id}
    (new : dgm.acksAnew sender acked = true) : dgm.isAdd acked = true ∨ dgm.isRemove acked = true := by
  unfold StrongRemoveDgm.acksAnew at new
  unfold StrongRemoveDgm.isAdd StrongRemoveDgm.isRemove
  cases isAdd : dgm.addedBy acked with
  | some added => exact .inl rfl
  | none =>
    cases isRemove : dgm.removesById acked with
    | some remove => exact .inr rfl
    | none => simp [isAdd, isRemove] at new

/-- What `noteAck` leaves behind. An acknowledgement that is new is one of an add or a remove. -/
theorem final_noteAck_eq_iff (dgm : StrongRemoveDgm Id) (acked : MessageId Id) (always : Bool) :
    final (noteAck state sender acked always dgm) = dgm ↔ (sender ≠ state.id && dgm.acksAnew sender acked) = false := by
  unfold noteAck
  by_cases own : sender = state.id
  · simp only [own, if_true, ne_eq, not_true, decide_false, Bool.false_and, iff_true]
    rfl
  · simp only [own, if_false, ne_eq, not_false_eq_true, decide_true, Bool.true_and]
    rw [← StrongRemoveDgm.final_ack_eq_iff]
    show final ((if always || dgm.isAdd acked || dgm.isRemove acked then _ else _ : DcgkaM Id _) dgm) = dgm ↔ _
    by_cases known : (always || dgm.isAdd acked || dgm.isRemove acked) = true
    · rw [if_pos known, final_bind fun _ => reads_pure]
    · rw [if_neg known, StrongRemoveDgm.final_ack_eq_iff]
      have old : dgm.acksAnew sender acked = false := by
        by_contra new
        have isKnown := isAdd_or_isRemove_of_acksAnew (Bool.eq_true_of_not_eq_false new)
        simp only [Bool.or_eq_true, not_or] at known
        rcases isKnown with isAdd | isRemove
        · exact known.1.2 isAdd
        · exact known.2 isRemove
      simp only [old, iff_true]
      rfl

theorem final_processAck (dgm : StrongRemoveDgm Id) :
    final (processAck crypto state sender causalInfo dgm) = dgm ↔ touches dgm state.id
      (.ack [] : FullDcgkaMessage Id Cipher) sender causalInfo = false := by
  unfold processAck touches
  cases causalInfo.ackedMessageId with
  | none => simp only [Option.any_none, Bool.and_false, iff_true]; rfl
  | some acked =>
    rw [final_bind fun _ => reads_ofExcept.bind fun _ => reads_pure]
    exact final_noteAck_eq_iff dgm acked false

theorem final_processAddAck (dgm : StrongRemoveDgm Id) :
    final (processAddAck crypto state prfForAdded sender causalInfo dgm) = dgm ↔ touches dgm state.id
      (.addAck prfForAdded) sender causalInfo = false := by
  unfold processAddAck touches
  cases causalInfo.ackedMessageId with
  | none => simp only [Option.any_none, Bool.and_false, iff_true]; rfl
  | some acked =>
    rw [final_bind fun _ => reads_ofExcept.bind fun _ => reads_get.bind fun _ => reads_pure]
    exact final_noteAck_eq_iff dgm acked true

theorem final_processRemove {removed : Id} (dgm : StrongRemoveDgm Id) :
    final (processRemove crypto state ciphertexts removed sender causalInfo secret dgm) = dgm ↔
      touches dgm state.id (.remove ciphertexts removed) sender causalInfo = false := by
  unfold processRemove touches
  rw [final_bind, StrongRemoveDgm.final_remove_eq_iff]
  · simp
  · intro removedCollection
    dsimp only
    split
    · exact reads_pure
    · exact reads_get.bind fun _ => reads_ofExcept.bind fun _ => reads_ofExcept.bind fun _ => reads_pure

theorem final_processAdd {added : Id} {dgm : StrongRemoveDgm Id} (fresh : dgm.isAdd causalInfo.messageId = false) :
    final (processAdd crypto state added sender causalInfo dgm) = dgm ↔ touches dgm state.id
      (.add added : FullDcgkaMessage Id Cipher) sender causalInfo = false := by
  unfold processAdd touches
  rw [final_bind fun _ => reads_get.bind fun _ => reads_ofExcept.bind fun _ => reads_pure,
    StrongRemoveDgm.final_add_eq_iff dgm sender added fresh]
  simp

/-- The message is no add, or one with a new number. -/
def Fresh (dgm : StrongRemoveDgm Id) (message : FullDcgkaMessage Id Cipher) (causalInfo : Timestamp Id) : Prop :=
  ∀ added, message = .add added → dgm.isAdd causalInfo.messageId = false

/-- **What a handler leaves behind**, whether it throws or not. -/
theorem final_handle {dgm : StrongRemoveDgm Id} (fresh : Fresh dgm message causalInfo) :
    final (handle crypto state message sender causalInfo secret dgm) = dgm ↔
      touches dgm state.id message sender causalInfo = false := by
  cases message with
  | add added => exact final_processAdd (fresh added rfl)
  | create ciphertexts ids => exact iff_of_true (reads_processCreate dgm) rfl
  | update ciphertexts => exact iff_of_true (reads_processUpdate dgm) rfl
  | welcome copy prfForAdded => exact iff_of_true (reads_processWelcome dgm) rfl
  | malformed => exact iff_of_true rfl rfl
  | remove ciphertexts removed => exact final_processRemove dgm
  | ack forwards => exact final_processAck dgm
  | addAck prfForAdded => exact final_processAddAck dgm
  | ackWithUpdate forwards ciphertexts =>
    show final ((processAck crypto state sender causalInfo >>= _) dgm) = dgm ↔ _
    rw [final_bind fun _ => reads_processUpdate.bind fun _ => reads_pure]
    exact final_processAck dgm

variable {e : Exc} {dgm' : StrongRemoveDgm Id}

variable {returned : ProcessReturn Id Bytes Channel Cipher}

/-- Nobody is removed by an update. -/
theorem returns_processUpdate : Returns (fun returned : ProcessReturn Id Bytes Channel Cipher => returned.removed = [])
    (processUpdate crypto state ciphertexts sender causalInfo) :=
  returns_bind fun _ => returns_bind fun _ => returns_pure rfl

/-- A client that is removed does not respond. -/
theorem returns_handle : Returns (fun returned : ProcessReturn Id Bytes Channel Cipher =>
      state.id ∈ returned.removed → returned.responseMessage = none)
    (handle crypto state message sender causalInfo secret) := by
  -- Nobody is removed but by a remove.
  have nobody {removed : List Id} {response : Option (FullDcgkaMessage Id Cipher)} (none : removed = [])
      (removes : state.id ∈ removed) : response = Option.none := by simp [none] at removes
  cases message with
  | remove ciphertexts removed =>
    refine returns_bind fun removedCollection => ?_
    dsimp only
    split
    · exact returns_pure fun _ => rfl
    · rename_i stays
      exact returns_bind fun _ => returns_bind fun _ => returns_bind fun _ => returns_pure fun removes =>
        absurd removes stays
  | create ciphertexts ids =>
    unfold handle processCreate
    dsimp only
    split
    · exact returns_throw
    · exact returns_bind fun _ => returns_pure (nobody rfl)
  | update ciphertexts => exact fun _ _ _ ok => nobody (returns_processUpdate _ _ _ ok)
  | add added => exact returns_bind fun _ => returns_bind fun _ => returns_bind fun _ => returns_pure (nobody rfl)
  | welcome copy prfForAdded => exact returns_bind fun _ => returns_bind fun _ => returns_pure (nobody rfl)
  | ack forwards =>
    unfold handle processAck
    cases causalInfo.ackedMessageId with
    | none => exact returns_throw
    | some acked => exact returns_bind fun _ => returns_bind fun _ => returns_pure (nobody rfl)
  | addAck prfForAdded =>
    unfold handle processAddAck
    cases causalInfo.ackedMessageId with
    | none => exact returns_throw
    | some acked => exact returns_bind fun _ => returns_bind fun _ => returns_bind fun _ => returns_pure (nobody rfl)
  | ackWithUpdate forwards ciphertexts =>
    exact returns_bind fun _ => returns_processUpdate.bind fun _ none => returns_pure (nobody none)
  | malformed => exact returns_throw

/-- **What the key agreement leaves behind** when it throws. -/
theorem process_error (fresh : Fresh dgm message causalInfo)
    (throws : process crypto state message sender causalInfo secret dgm = .error e dgm') :
    dgm' = dgm ↔ touches dgm state.id message sender causalInfo = false := by
  obtain ⟨e', rfl, handles⟩ := rethrow_error_iff.mp throws
  rw [← final_handle fresh, handles]
  exact Iff.rfl

theorem process_ok (fresh : Fresh dgm message causalInfo)
    (processes : process crypto state message sender causalInfo secret dgm = .ok returned dgm') :
    dgm' = dgm ↔ touches dgm state.id message sender causalInfo = false := by
  rw [← final_handle fresh, rethrow_ok_iff.mp processes]
  exact Iff.rfl

end FullDcgka

/-! ### The client -/

namespace ModularDsgm

variable (dsgm : ModularDsgm Id Bytes Channel Cipher SignatureState EncryptionState)
  {state : State Id Bytes Channel Cipher SignatureState EncryptionState} {message : ModularMessage Id Bytes Cipher}
  {signed : Option (SignedMessage Id Bytes)} {sender : Id} {causalInfo : Option (Timestamp Id)} {secret : Bytes}
  {dgm dgm' : StrongRemoveDgm Id}

/-- The message that the key agreement gets to process, if any. -/
def handed (dgm : StrongRemoveDgm Id) (state : State Id Bytes Channel Cipher SignatureState EncryptionState)
    (message : ModularMessage Id Bytes Cipher) (signed : Option (SignedMessage Id Bytes)) (sender : Id)
    (causalInfo : Option (Timestamp Id)) : Option (FullDcgkaMessage Id Cipher × Timestamp Id) :=
  match dsgm.prepare dgm state message signed sender causalInfo, message.content with
  | .ok (some (_, causalInfo)), .dcgka content => some (content, causalInfo)
  | _, _ => none

/-- The messages whose processing changes the object. -/
def touches (dgm : StrongRemoveDgm Id) (state : State Id Bytes Channel Cipher SignatureState EncryptionState)
    (message : ModularMessage Id Bytes Cipher) (signed : Option (SignedMessage Id Bytes)) (sender : Id)
    (causalInfo : Option (Timestamp Id)) : Bool :=
  (dsgm.handed dgm state message signed sender causalInfo).any fun handed =>
    FullDcgka.touches dgm state.id handed.1 sender handed.2

/-- The client refuses a message, or is removed by it: it goes on with its old state. -/
def Refuses (state : State Id Bytes Channel Cipher SignatureState EncryptionState)
    (message : ModularMessage Id Bytes Cipher) (signed : Option (SignedMessage Id Bytes)) (sender : Id)
    (causalInfo : Option (Timestamp Id)) (secret : Bytes) (dgm dgm' : StrongRemoveDgm Id) : Prop :=
  dsgm.process state message signed sender causalInfo secret dgm = .ok none dgm' ∨
    ∃ result, dsgm.process state message signed sender causalInfo secret dgm = .ok (some result) dgm' ∧
      state.id ∈ result.effect.removed

variable {dsgm} {respond : Respond Id Bytes Channel Cipher SignatureState EncryptionState}

/-- What `process` makes of the result of its body. -/
theorem processWith_eq :
    dsgm.processWith respond state message signed sender causalInfo secret dgm =
      match dsgm.processBody respond state message signed sender causalInfo secret dgm with
      | .ok result dgm' => .ok result dgm'
      | .error e dgm' => if e.caught then .ok none dgm' else .error e dgm' := by
  show EStateM.tryCatch _ _ dgm = _
  unfold EStateM.tryCatch
  cases dsgm.processBody respond state message signed sender causalInfo secret dgm with
  | ok result dgm' => rfl
  | error e dgm' =>
    show (if e.caught then _ else _ : FullDcgka.DcgkaM Id _) dgm' = _
    dsimp only
    split <;> rfl

variable {e : Exc}

theorem processWith_error
    (throws : dsgm.processWith respond state message signed sender causalInfo secret dgm = .error e dgm') :
    e.caught = false := by
  rw [processWith_eq] at throws
  split at throws
  · cases throws
  · split at throws
    · cases throws
    · rename_i uncaught
      cases throws
      exact Bool.eq_false_of_not_eq_true uncaught

theorem wrapAndProcess_error {content : Content Id Bytes Cipher} {updateSignature : Bool}
    (throws : dsgm.wrapAndProcess state content updateSignature secret dgm = .error e dgm') : e.caught = false := by
  unfold wrapAndProcess at throws
  dsimp only at throws
  rcases bind_error_iff.mp throws with orders | ⟨⟨ordererState, orderInfo, timestamp⟩, _, -, throws⟩
  · obtain ⟨fails, -⟩ := ofExcept_error_iff.mp orders
    unfold AckOrderer.getNextOrderInfo at fails
    split at fails
    · cases fails
      rfl
    · cases fails
  · cases content with
    | application ciphertext => cases throws
    | dcgka response =>
      rcases bind_error_iff.mp throws with throws | ⟨result, _, -, throws⟩
      · exact processWith_error throws
      · cases result with
        | none =>
          cases throws
          rfl
        | some result => cases throws

omit [LinearOrder Id] in
theorem onObject_error {α : Type} {newDgm : Option (StrongRemoveDgm Id)}
    {call : FullDcgka.DcgkaM Id (α × Option (StrongRemoveDgm Id))}
    (throws : onObject newDgm call dgm = .error e dgm') : ∃ before after, call before = .error e after := by
  cases newDgm with
  | none => exact ⟨dgm, dgm', throws⟩
  | some new =>
    unfold onObject at throws
    dsimp only at throws
    cases calls : call new with
    | ok value after =>
      rw [calls] at throws
      cases throws
    | error e' after =>
      rw [calls] at throws
      cases throws
      exact ⟨new, after, calls⟩

section Respond

variable {respond : Respond Id Bytes Channel Cipher SignatureState EncryptionState}
  {content : FullDcgkaMessage Id Cipher} {isOwn : Bool} {info : Timestamp Id}

/-- A message of the key agreement is refused by its handler, not by the response. -/
theorem processDcgka_caught
    (fresh : FullDcgka.Fresh dgm content info)
    (uncaught : ∀ {state response dgm dgm' e}, respond state response dgm = .error e dgm' → e.caught = false)
    {e : Exc} (caught : e.caught = true)
    (throws : dsgm.processDcgka respond state content isOwn sender info secret dgm = .error e dgm') :
    dgm' = dgm ↔ FullDcgka.touches dgm state.id content sender info = false := by
  rcases bind_error_iff.mp throws with throws | ⟨result, mid, -, throws⟩
  · exact FullDcgka.process_error fresh throws
  · exfalso
    cases isResponse : result.responseMessage with
    | none =>
      simp only [isResponse] at throws
      cases throws
    | some response =>
      simp only [isResponse] at throws
      split at throws
      · cases throws
        cases caught
      · rcases bind_error_iff.mp throws with throws | ⟨_, _, -, returns⟩
        · obtain ⟨_, _, fails⟩ := onObject_error throws
          rw [uncaught fails] at caught
          cases caught
        · cases returns

theorem processDcgka_removed (fresh : FullDcgka.Fresh dgm content info)
    {result : Result Id Bytes Channel Cipher SignatureState EncryptionState}
    (processes : dsgm.processDcgka respond state content isOwn sender info secret dgm = .ok result dgm')
    (removes : state.id ∈ result.effect.removed) :
    dgm' = dgm ↔ FullDcgka.touches dgm state.id content sender info = false := by
  obtain ⟨returned, mid, agrees, rest⟩ := bind_ok_iff.mp processes
  cases isResponse : returned.responseMessage with
  | none =>
    simp only [isResponse] at rest
    obtain ⟨rfl, rfl⟩ := pure_ok_iff.mp rest
    exact FullDcgka.process_ok fresh agrees
  | some response =>
    simp only [isResponse] at rest
    split at rest
    · obtain ⟨_, _, throws, -⟩ := bind_ok_iff.mp rest
      cases throws
    · obtain ⟨_, _, -, returns⟩ := bind_ok_iff.mp rest
      obtain ⟨rfl, rfl⟩ := pure_ok_iff.mp returns
      have silent := FullDcgka.returns_handle _ _ _ (rethrow_ok_iff.mp agrees) removes
      rw [isResponse] at silent
      cases silent

end Respond

variable {state' : State Id Bytes Channel Cipher SignatureState EncryptionState}

omit [LinearOrder Id] in
theorem updateSignature_dcgkaState
    (updates : dsgm.updateSignature state message signed sender = .ok state') :
    state'.dcgkaState = state.dcgkaState := by
  unfold updateSignature at updates
  split at updates
  · obtain ⟨signatureState, -, returns⟩ := except_bind_ok_iff.mp updates
    obtain rfl := except_pure_ok_iff.mp returns
    rfl
  · obtain rfl := Except.ok.inj updates
    rfl

theorem admit_dcgkaState {info : Timestamp Id}
    (admits : dsgm.takeIn dgm state message sender causalInfo = .ok (some (state', info))) :
    state'.dcgkaState = state.dcgkaState := by
  unfold takeIn at admits
  split at admits
  · split at admits
    · cases admits
    · obtain ⟨_, -, admits⟩ := except_bind_ok_iff.mp admits
      obtain ⟨_, -, returns⟩ := except_bind_ok_iff.mp admits
      cases except_pure_ok_iff.mp returns
      rfl
  · split at admits
    · cases admits
    · split at admits
      · cases admits
      · split at admits
        · cases admits
        · cases admits
        · cases admits
          rfl

/-- What comes before the content of a message does not change the key agreement. -/
theorem prepare_dcgkaState {info : Timestamp Id}
    (prepares : dsgm.prepare dgm state message signed sender causalInfo = .ok (some (state', info))) :
    state'.dcgkaState = state.dcgkaState := by
  unfold prepare at prepares
  split at prepares
  · cases prepares
  · split at prepares
    · cases prepares
    · obtain ⟨verifies, -, prepares⟩ := except_bind_ok_iff.mp prepares
      split at prepares
      · obtain ⟨mid, updates, admits⟩ := except_bind_ok_iff.mp prepares
        exact (admit_dcgkaState admits).trans (updateSignature_dcgkaState updates)
      · cases except_pure_ok_iff.mp prepares

/-- The method that sends the responses of a client. -/
def responder (dsgm : ModularDsgm Id Bytes Channel Cipher SignatureState EncryptionState) (secret : Bytes) :
    Respond Id Bytes Channel Cipher SignatureState EncryptionState :=
  fun state response => dsgm.wrapAndProcess state (.dcgka response) false secret

/-- How the body of `process` ends where the message is refused. -/
theorem Refuses.body (refuses : dsgm.Refuses state message signed sender causalInfo secret dgm dgm') :
    dsgm.processBody (dsgm.responder secret) state message signed sender causalInfo secret dgm = .ok none dgm' ∨
    (∃ e, e.caught = true ∧
      dsgm.processBody (dsgm.responder secret) state message signed sender causalInfo secret dgm = .error e dgm') ∨
    ∃ result,
      dsgm.processBody (dsgm.responder secret) state message signed sender causalInfo secret dgm = .ok (some result) dgm' ∧
      state.id ∈ result.effect.removed := by
  have processes : dsgm.process state message signed sender causalInfo secret dgm = _ := processWith_eq
  unfold Refuses at refuses
  rw [processes] at refuses
  change _ ∨ _ at refuses
  cases isBody : dsgm.processBody (dsgm.responder secret) state message signed sender causalInfo secret dgm with
  | ok result after =>
    have isBody' := isBody
    unfold responder at isBody'
    simp only [isBody'] at refuses
    rcases refuses with refuses | ⟨result, removes, isRemoved⟩
    · exact .inl refuses
    · exact .inr (.inr ⟨result, removes, isRemoved⟩)
  | error e after =>
    have isBody' := isBody
    unfold responder at isBody'
    simp only [isBody'] at refuses
    split at refuses
    · rename_i caught
      rcases refuses with refuses | ⟨result, removes, -⟩
      · cases refuses
        exact .inr (.inl ⟨e, caught, rfl⟩)
      · cases removes
    · rcases refuses with refuses | ⟨result, removes, -⟩
      · cases refuses
      · cases removes

theorem processBody_eq {respond : Respond Id Bytes Channel Cipher SignatureState EncryptionState} :
    dsgm.processBody respond state message signed sender causalInfo secret dgm =
      match dsgm.prepare dgm state message signed sender causalInfo with
      | .error e => .error e dgm
      | .ok none => .ok none dgm
      | .ok (some (state, causalInfo)) =>
        match message.content with
        | .dcgka content => (some <$> dsgm.processDcgka respond state content signed.isNone sender causalInfo secret) dgm
        | .application ciphertext =>
          (ofExcept (dsgm.processApplication state ciphertext signed.isNone sender) : FullDcgka.DcgkaM Id _) dgm := by
  unfold processBody
  show (ofExcept (dsgm.prepare dgm state message signed sender causalInfo) >>= _ : FullDcgka.DcgkaM Id _) dgm = _
  cases dsgm.prepare dgm state message signed sender causalInfo with
  | error e => rfl
  | ok prepared =>
    cases prepared with
    | none => rfl
    | some prepared =>
      obtain ⟨state, causalInfo⟩ := prepared
      cases message.content <;> rfl

/-- The message that the key agreement gets is no add, or one with a new number. -/
def Fresh (dsgm : ModularDsgm Id Bytes Channel Cipher SignatureState EncryptionState) (dgm : StrongRemoveDgm Id)
    (state : State Id Bytes Channel Cipher SignatureState EncryptionState) (message : ModularMessage Id Bytes Cipher)
    (signed : Option (SignedMessage Id Bytes)) (sender : Id) (causalInfo : Option (Timestamp Id)) : Prop :=
  ∀ content info, dsgm.handed dgm state message signed sender causalInfo = some (content, info) →
    FullDcgka.Fresh dgm content info

theorem refuses_iff (fresh : dsgm.Fresh dgm state message signed sender causalInfo)
    (refuses : dsgm.Refuses state message signed sender causalInfo secret dgm dgm') :
    dgm' = dgm ↔ dsgm.touches dgm state message signed sender causalInfo = false := by
  have body := refuses.body
  rw [processBody_eq] at body
  unfold Fresh handed at fresh
  unfold touches handed
  cases prepares : dsgm.prepare dgm state message signed sender causalInfo with
  | error e =>
    simp only [prepares] at body
    refine iff_of_true ?_ rfl
    rcases body with returns | ⟨_, -, throws⟩ | ⟨_, returns, -⟩
    · cases returns
    · cases throws
      rfl
    · cases returns
  | ok prepared =>
    simp only [prepares] at body
    cases prepared with
    | none =>
      refine iff_of_true ?_ rfl
      rcases body with returns | ⟨_, -, throws⟩ | ⟨_, returns, -⟩
      · cases returns
        rfl
      · cases throws
      · cases returns
    | some prepared =>
      obtain ⟨state', info⟩ := prepared
      cases isContent : message.content with
      | application ciphertext =>
        simp only [isContent] at body
        refine iff_of_true ?_ rfl
        rcases body with returns | ⟨_, -, throws⟩ | ⟨_, returns, -⟩
        · exact (ofExcept_ok_iff.mp returns).2.symm
        · exact (ofExcept_error_iff.mp throws).2.symm
        · exact (ofExcept_ok_iff.mp returns).2.symm
      | dcgka content =>
        simp only [isContent] at body
        have isFresh : FullDcgka.Fresh dgm content info := fresh content info (by rw [prepares, isContent])
        have same : state'.id = state.id := congrArg FullDcgka.State.id (prepare_dcgkaState prepares)
        rw [Option.any_some, ← same]
        rcases body with returns | ⟨e, caught, throws⟩ | ⟨result, returns, removes⟩
        · obtain ⟨_, -, isSome⟩ := map_ok_iff.mp returns
          cases isSome
        · exact processDcgka_caught isFresh wrapAndProcess_error caught (map_error_iff.mp throws)
        · obtain ⟨_, processes, isSome⟩ := map_ok_iff.mp returns
          cases isSome
          exact processDcgka_removed isFresh processes (same ▸ removes)

/-- The loop of `receive` goes on with the old state, without the message. -/
theorem receiveReady_of_refuses
    {ready : AckOrderer.ReadyMessage Id (ModularMessage Id Bytes Cipher × SignedMessage Id Bytes)}
    (isReady : AckOrderer.getReadyMessage state.ordererState = .ok (some ready))
    (refuses : dsgm.Refuses { state with ordererState := .welcomed ready.nextState } ready.message.1
      (some ready.message.2) ready.sender (some ready.causalInfo) secret dgm dgm') :
    ∃ ordererState effects, AckOrderer.skipReadyMessage state.ordererState = .ok ordererState ∧
      dsgm.receiveReady state ready secret dgm = .ok (({ state with ordererState }, effects), none) dgm' := by
  obtain ⟨ordererState, skips⟩ : ∃ ordererState,
      AckOrderer.skipReadyMessage state.ordererState = .ok ordererState := by
    cases isOrderer : state.ordererState with
    | waiting id waitingForWelcome =>
      rw [isOrderer] at isReady
      cases isReady
    | welcomed orderer => exact ⟨_, rfl⟩
  have skipped (dgm : StrongRemoveDgm Id) :
      (ofExcept (AckOrderer.skipReadyMessage state.ordererState) : FullDcgka.DcgkaM Id _) dgm = .ok ordererState dgm :=
    ofExcept_ok_iff.mpr ⟨skips, rfl⟩
  rcases refuses with returns | ⟨result, returns, removes⟩
  · exact ⟨ordererState, [], skips, bind_ok_iff.mpr ⟨_, _, returns, bind_ok_iff.mpr ⟨_, _, skipped _, rfl⟩⟩⟩
  · refine ⟨ordererState, [result.effect], skips, bind_ok_iff.mpr ⟨_, _, returns, ?_⟩⟩
    show (if state.id ∈ result.effect.removed then _ else _ : FullDcgka.DcgkaM Id _) dgm' = _
    rw [if_pos (show state.id ∈ result.effect.removed from removes)]
    exact bind_ok_iff.mpr ⟨_, _, skipped _, rfl⟩

namespace Sample

/-- Hashes that keep their inputs apart, and channels in the clear, on which an empty ciphertext cannot be decrypted.
Every signature is good. -/
def toy : ModularDsgm Nat (List Nat) Unit (List Nat) Unit Unit where
  crypto := {
    prf := fun user seed => 1 :: user :: seed
    hashUpdate := fun key chainUpdate => 2 :: (key.map (· ++ [0])).getD [] ++ chainUpdate
    hashChain := fun key chainUpdate => 3 :: (key.map (· ++ [0])).getD [] ++ chainUpdate
    welcome := [4]
    add := [5]
    connect := fun _ _ => ()
    encrypt := fun _ plaintext => .ok ((), plaintext)
    decrypt := fun _ ciphertext => if ciphertext = [] then none else some ((), ciphertext) }
  forwardSecureEncryption := ⟨fun _ => (), fun _ ciphertext => .ok ((), some ciphertext)⟩
  signatures := ⟨fun _ _ => [], fun _ _ _ _ _ => .ok true, fun _ => ((), []), fun _ _ _ => .ok (),
    fun _ _ _ => .ok ()⟩
  format := ⟨fun _ => [], fun _ => none, fun _ => [], fun _ => none⟩

def envelope : SignedMessage Nat (List Nat) := ⟨[], 0, []⟩

/-- Client 0 has created a group of clients 0, 1 and 2. Client 1 joins it. -/
def created : ModularMessage Nat (List Nat) (List Nat) := ⟨true, .dcgka (.create [[7], [7]] [1, 2]), .null, none⟩

def afterCreate : Option (Result Nat (List Nat) Unit (List Nat) Unit Unit) × StrongRemoveDgm Nat :=
  (value? (toy.process (State.new 1 ()) created (some envelope) 0 none [] (StrongRemoveDgm.empty 1))).get
    (by decide +kernel)

def joined : Result Nat (List Nat) Unit (List Nat) Unit Unit := afterCreate.1.get (by decide +kernel)

def group : StrongRemoveDgm Nat := joined.newDgm.getD afterCreate.2

def info : Timestamp Nat := ⟨⟨0, 2⟩, none, none⟩

/-- Client 0 removes client 2. What it has encrypted for client 1 cannot be decrypted. -/
def removal : ModularMessage Nat (List Nat) (List Nat) := ⟨false, .dcgka (.remove [[]] 2), info.serialize, none⟩

def afterRemoval : Option (Result Nat (List Nat) Unit (List Nat) Unit Unit) × StrongRemoveDgm Nat :=
  (value? (toy.process joined.state removal (some envelope) 0 (some info) [] group)).get (by decide +kernel)

/-- An update of client 0 that client 1 cannot decrypt, in the queue of client 1. -/
def update : ModularMessage Nat (List Nat) (List Nat) := ⟨false, .dcgka (.update [[], []]), info.serialize, none⟩

def queued : State Nat (List Nat) Unit (List Nat) Unit Unit :=
  { joined.state with
    ordererState := ((AckOrderer.queue joined.state.ordererState (update, envelope) 0 info.serialize).toOption).get
      (by decide +kernel) }

def ready : AckOrderer.ReadyMessage Nat (ModularMessage Nat (List Nat) (List Nat) × SignedMessage Nat (List Nat)) :=
  (((AckOrderer.getReadyMessage queued.ordererState).toOption).bind fun found => found).get (by decide +kernel)

def afterUpdate : Option (Result Nat (List Nat) Unit (List Nat) Unit Unit) × StrongRemoveDgm Nat :=
  (value? (toy.process { queued with ordererState := .welcomed ready.nextState } ready.message.1
    (some ready.message.2) ready.sender (some ready.causalInfo) [] group)).get (by decide +kernel)

end Sample

end ModularDsgm

end KeyhiveEval.Dcgka
