import OmniRush.Engine2.Import
import OmniRush.Lib.Machine

/-!
# Imported sessions keep their order and identity

The document goes through three passes, and each is looked at by what it keeps: the second
and third keep the ids, the roles and the parents of the first (`Outline`), the third makes
the times and part ids ascend. The ids come from the records, of which each gives its own
id and at most one other (`ids_v1Record`).
-/

namespace OmniRush.Engine2

/-! ## What the passes keep -/

def MessageInfo.parentID : MessageInfo → Option String
  | .user _ => none
  | .assistant info => some info.parentID

/-- The id of a message and of its parent. Only a user message has none. -/
def outline (message : V1Message) : String × Option String :=
  (message.info.id, message.info.parentID)

@[simp] theorem id_closed (info : MessageInfo) (stop : Int) : (info.closed stop).id = info.id := by
  cases info <;> rfl

@[simp] theorem created_closed (info : MessageInfo) (stop : Int) :
    (info.closed stop).created = info.created := by
  cases info <;> rfl

@[simp] theorem parentID_closed (info : MessageInfo) (stop : Int) :
    (info.closed stop).parentID = info.parentID := by
  cases info <;> rfl

@[simp] theorem id_createdAt (info : MessageInfo) (created : Int) :
    (info.createdAt created).id = info.id := by
  cases info <;> rfl

@[simp] theorem created_createdAt (info : MessageInfo) (created : Int) :
    (info.createdAt created).created = created := by
  cases info <;> rfl

@[simp] theorem parentID_createdAt (info : MessageInfo) (created : Int) :
    (info.createdAt created).parentID = info.parentID := by
  cases info <;> rfl

theorem outline_storedMessage (message : V1Message) :
    outline (storedMessage message) = outline message := by
  simp [outline, storedMessage]

/-- The info a message is stored with. -/
def storedInfo (previous : Option (Int × String)) (info : MessageInfo) : MessageInfo :=
  match storedCreated previous info with
  | some created => info.createdAt created
  | none => info

theorem inStoredOrderFrom_cons (previous : Option (Int × String)) (message : V1Message)
    (rest : List V1Message) : inStoredOrderFrom previous (message :: rest) =
      { info := storedInfo previous message.info
        parts := renumber (storedInfo previous message.info).id message.parts } ::
      inStoredOrderFrom (some ((storedInfo previous message.info).created,
        (storedInfo previous message.info).id)) rest := rfl

theorem id_storedInfo (previous : Option (Int × String)) (info : MessageInfo) :
    (storedInfo previous info).id = info.id := by
  unfold storedInfo
  split
  · exact id_createdAt _ _
  · rfl

theorem parentID_storedInfo (previous : Option (Int × String)) (info : MessageInfo) :
    (storedInfo previous info).parentID = info.parentID := by
  unfold storedInfo
  split
  · exact parentID_createdAt _ _
  · rfl

theorem outlines_inStoredOrderFrom (previous : Option (Int × String)) (messages : List V1Message) :
    (inStoredOrderFrom previous messages).map outline = messages.map outline := by
  induction messages generalizing previous with
  | nil => rfl
  | cons message messages ih =>
      rw [inStoredOrderFrom_cons, List.map_cons, List.map_cons, ih]
      unfold outline
      rw [id_storedInfo, parentID_storedInfo]

theorem mem_inStoredOrderFrom {previous : Option (Int × String)} {messages : List V1Message}
    {m : V1Message} (h : m ∈ inStoredOrderFrom previous messages) :
    ∃ before ∈ messages, ∃ previous, m.info = storedInfo previous before.info ∧
      m.parts = renumber before.info.id before.parts := by
  induction messages generalizing previous with
  | nil => cases h
  | cons message messages ih =>
      rw [inStoredOrderFrom_cons] at h
      rcases List.mem_cons.mp h with rfl | h
      · exact ⟨message, List.mem_cons_self, previous, rfl, by rw [id_storedInfo]⟩
      · obtain ⟨before, hbefore, rest⟩ := ih h
        exact ⟨before, List.mem_cons_of_mem _ hbefore, rest⟩

/-! ## The times ascend -/

/-- The order in which the 1.x engine lists messages. -/
def storedLe (a b : V1Message) : Bool :=
  decide (a.info.created < b.info.created) ||
    (decide (a.info.created = b.info.created) && jsLe a.info.id b.info.id)

/-- A time and an id stand before others. -/
def KeyLt (a b : Int × String) : Prop :=
  a.1 < b.1 ∨ a.1 = b.1 ∧ utf16 a.2.toList < utf16 b.2.toList

theorem KeyLt.trans {a b c : Int × String} (h : KeyLt a b) (h' : KeyLt b c) : KeyLt a c := by
  rcases h with hlt | ⟨heq, hid⟩ <;> rcases h' with hlt' | ⟨heq', hid'⟩
  · exact .inl (Int.lt_trans hlt hlt')
  · exact .inl (heq' ▸ hlt)
  · exact .inl (heq ▸ hlt')
  · exact .inr ⟨heq.trans heq', List.lt_trans hid hid'⟩

def V1Message.key (m : V1Message) : Int × String := (m.info.created, m.info.id)

theorem storedLe_of_lt {a b : V1Message} (h : KeyLt a.key b.key) : storedLe a b = true := by
  unfold storedLe
  rcases h with hlt | ⟨heq, hid⟩
  · have hcreated : a.info.created < b.info.created := hlt
    rw [decide_eq_true hcreated, Bool.true_or]
  · have hcreated : a.info.created = b.info.created := heq
    have hle : jsLe a.info.id b.info.id = true := by
      unfold jsLe
      rw [Bool.not_eq_true', decide_eq_false_iff_not]
      exact List.lt_asymm hid
    rw [decide_eq_true hcreated, hle, Bool.true_and, Bool.or_true]

/-- Each message is created after the one it follows, or then and with a later id. -/
theorem storedInfo_after (created : Int) (id : String) (info : MessageInfo) :
    KeyLt (created, id) ((storedInfo (some (created, id)) info).created,
      (storedInfo (some (created, id)) info).id) := by
  rw [id_storedInfo]
  unfold storedInfo storedCreated
  dsimp only
  split
  · next after hafter =>
      split at hafter
      · cases hafter
        rw [created_createdAt]
        exact .inl (Int.lt_succ created)
      · cases hafter
  · next hafter =>
      split at hafter
      · cases hafter
      · next hnot =>
          simp only [Bool.or_eq_true, Bool.and_eq_true, decide_eq_true_eq, not_or, not_and,
            Int.not_lt] at hnot
          obtain ⟨hle, hid⟩ := hnot
          rcases Int.lt_or_eq_of_le hle with hlt | heq
          · exact .inl hlt
          · refine .inr ⟨heq, ?_⟩
            have hafter := hid heq.symm
            simpa [jsLe] using hafter

theorem ascends_inStoredOrderFrom (created : Int) (id : String) (messages : List V1Message) :
    (∀ m ∈ inStoredOrderFrom (some (created, id)) messages, KeyLt (created, id) m.key) ∧
      (inStoredOrderFrom (some (created, id)) messages).Pairwise fun a b => KeyLt a.key b.key := by
  induction messages generalizing created id with
  | nil => exact ⟨fun _ hm => absurd hm List.not_mem_nil, .nil⟩
  | cons message messages ih =>
      obtain ⟨hafter, hpairs⟩ := ih (storedInfo (some (created, id)) message.info).created
        (storedInfo (some (created, id)) message.info).id
      have hhead := storedInfo_after created id message.info
      rw [inStoredOrderFrom_cons]
      refine ⟨fun m hm => ?_, .cons hafter hpairs⟩
      rcases List.mem_cons.mp hm with rfl | hm
      · exact hhead
      · exact hhead.trans (hafter m hm)

theorem ascends_inStoredOrder (messages : List V1Message) :
    (inStoredOrder messages).Pairwise fun a b => KeyLt a.key b.key := by
  cases messages with
  | nil => exact .nil
  | cons message messages =>
      obtain ⟨hafter, hpairs⟩ := ascends_inStoredOrderFrom message.info.created message.info.id messages
      exact .cons hafter hpairs

/-! ## The ids of messages -/

/-- The ids a record may give its messages. -/
def recordIds (message : JsonRecord) : List String := [userIdOf (messageId message), messageId message]

theorem ids_v1Record (ctx : MessageContext) (reading : Reading) (message : JsonRecord)
    (rest : List JsonRecord) :
    ((v1Record ctx reading message rest).1.map (·.info.id)).Sublist (recordIds message) := by
  have hone : [messageId message].Sublist (recordIds message) := .cons _ (.refl _)
  unfold v1Record
  split
  · exact List.nil_sublist _
  · exact List.nil_sublist _
  · exact hone
  · exact hone
  · exact hone
  · exact hone
  · exact .refl _
  · unfold v1CompactionMessages
    dsimp only
    split
    · exact .cons_cons _ (List.nil_sublist _)
    · exact .refl _
  · exact List.nil_sublist _

/-- The records of a session have different ids, and none that ends in `u`. -/
structure DistinctIds (messages : List JsonRecord) : Prop where
  distinct : (messages.map messageId).Nodup
  noUser : ∀ m ∈ messages, (messageId m).toList.getLast? ≠ some 'u'

theorem DistinctIds.tail {message : JsonRecord} {messages : List JsonRecord}
    (h : DistinctIds (message :: messages)) : DistinctIds messages where
  distinct := (List.nodup_cons.mp h.distinct).2
  noUser m hm := h.noUser m (List.mem_cons_of_mem _ hm)

theorem userIdOf_last (id : String) : (userIdOf id).toList.getLast? = some 'u' := by
  unfold userIdOf
  rw [String.toList_append]
  exact List.getLast?_concat

theorem userIdOf_inj {a b : String} (h : userIdOf a = userIdOf b) : a = b := by
  have hlist := congrArg String.toList h
  unfold userIdOf at hlist
  rw [String.toList_append, String.toList_append] at hlist
  exact String.toList_inj.mp (List.append_cancel_right hlist)

theorem recordIds_disjoint {a b : JsonRecord} {id : String}
    (ha : (messageId a).toList.getLast? ≠ some 'u') (hb : (messageId b).toList.getLast? ≠ some 'u')
    (hida : id ∈ recordIds a) (hidb : id ∈ recordIds b) : messageId a = messageId b := by
  simp only [recordIds, List.mem_cons, List.not_mem_nil, or_false] at hida hidb
  rcases hida with rfl | rfl <;> rcases hidb with heq | heq
  · exact userIdOf_inj heq
  · exact absurd (heq ▸ userIdOf_last _) hb
  · exact absurd (heq ▸ userIdOf_last _) ha
  · exact heq

theorem recordIds_nodup {message : JsonRecord} (h : (messageId message).toList.getLast? ≠ some 'u') :
    (recordIds message).Nodup := by
  have hne : userIdOf (messageId message) ≠ messageId message := by
    intro heq
    exact h (heq ▸ userIdOf_last _)
  simpa [recordIds] using hne

theorem mem_v1MessagesFrom {ctx : MessageContext} {reading : Reading} {messages : List JsonRecord}
    {m : V1Message} (h : m ∈ v1MessagesFrom ctx reading messages) :
    ∃ message ∈ messages, m.info.id ∈ recordIds message := by
  induction messages generalizing reading with
  | nil => cases h
  | cons message messages ih =>
      rw [v1MessagesFrom] at h
      rcases List.mem_append.mp h with h | h
      · exact ⟨message, List.mem_cons_self,
          (ids_v1Record ctx reading message messages).subset (List.mem_map.mpr ⟨m, h, rfl⟩)⟩
      · obtain ⟨message', hmem, hid⟩ := ih h
        exact ⟨message', List.mem_cons_of_mem _ hmem, hid⟩

theorem ids_v1MessagesFrom {messages : List JsonRecord} (h : DistinctIds messages)
    (ctx : MessageContext) (reading : Reading) :
    ((v1MessagesFrom ctx reading messages).map (·.info.id)).Nodup := by
  induction messages generalizing reading with
  | nil => exact .nil
  | cons message messages ih =>
      have hlast := h.noUser message List.mem_cons_self
      rw [v1MessagesFrom, List.map_append]
      refine List.nodup_append.mpr ⟨?_, ih h.tail _, fun id hid id' hid' heq => ?_⟩
      · exact (ids_v1Record ctx reading message messages).nodup (recordIds_nodup hlast)
      · subst heq
        obtain ⟨m, hm, rfl⟩ := List.mem_map.mp hid'
        obtain ⟨message', hmem, hrecord⟩ := mem_v1MessagesFrom hm
        have hown := (ids_v1Record ctx reading message messages).subset hid
        have hsame := recordIds_disjoint hlast
          (h.noUser message' (List.mem_cons_of_mem _ hmem)) hown hrecord
        exact (List.nodup_cons.mp h.distinct).1 (hsame ▸ List.mem_map.mpr ⟨message', hmem, rfl⟩)

/-! ## The ids of parts -/

@[simp] theorem renumber_ids (id : String) (parts : List Part) :
    (renumber id parts).map (·.id) = (List.range parts.length).map (storedPartId id) := by
  unfold renumber
  rw [List.map_map, List.range_eq_range', ← List.zipIdx_map_snd 0 parts, List.map_map]
  rfl

theorem dash_notMem_ordinal (index : Nat) : '_' ∉ ordinal index :=
  fun h => absurd (padDigits_isDigit h) (by decide)

theorem storedPartId_inj {a b : String} {i j : Nat} (h : storedPartId a i = storedPartId b j) :
    idCore a.toList = idCore b.toList ∧ i = j := by
  have hlist := String.ofList_injective h
  rw [List.append_assoc, List.append_assoc] at hlist
  obtain ⟨hcore, hordinal⟩ := append_cons_inj (dash_notMem_ordinal i) (dash_notMem_ordinal j)
    (List.append_cancel_left hlist)
  exact ⟨hcore, padDigits_inj hordinal⟩

theorem storedPartId_units (id : String) (index : Nat) :
    utf16 (storedPartId id index).toList = utf16 ("prt_".toList ++ idCore id.toList) ++
      (charUnits '_' ++ (ordinal index).map Char.toNat) := by
  have hunits : utf16 (ordinal index) = (ordinal index).map Char.toNat :=
    utf16_digits fun _ hc => padDigits_isDigit hc
  unfold storedPartId
  rw [String.toList_ofList, utf16_append, utf16_cons, hunits]

theorem storedPartId_lt {id : String} {i j : Nat} (h : i < j) (hj : j < 10000) :
    utf16 (storedPartId id i).toList < utf16 (storedPartId id j).toList := by
  have hordinal : (ordinal i).map Char.toNat < (ordinal j).map Char.toNat :=
    padDigits_lt (by decide) h hj
  rw [storedPartId_units, storedPartId_units]
  exact List.append_left_lt (List.append_left_lt hordinal)

/-- The order in which the 1.x engine lists the parts of a message. -/
def partLe (p q : Part) : Bool := jsLe p.id q.id

theorem renumber_sorted (id : String) {parts : List Part} (h : parts.length ≤ 10000) :
    (renumber id parts).Pairwise fun p q => partLe p q = true := by
  have hids : ((renumber id parts).map (·.id)).Pairwise fun a b => jsLe a b = true := by
    rw [renumber_ids, List.pairwise_map]
    refine List.pairwise_lt_range.imp_of_mem fun {i j} _ hj hlt => ?_
    have hj := List.mem_range.mp hj
    unfold jsLe
    rw [Bool.not_eq_true', decide_eq_false_iff_not]
    exact List.lt_asymm (storedPartId_lt hlt (by omega))
  exact List.pairwise_map.mp hids

theorem prefix_append_u (cs : List Char) :
    "msg_".toList.isPrefixOf (cs ++ ['u']) = "msg_".toList.isPrefixOf cs := by
  match cs with
  | [] => rfl
  | [a] => simp [List.isPrefixOf]
  | [a, b] => simp [List.isPrefixOf]
  | [a, b, c] => simp [List.isPrefixOf]
  | a :: b :: c :: d :: rest => simp [List.isPrefixOf]

theorem idCore_userIdOf (id : String) :
    idCore (userIdOf id).toList = idCore id.toList ++ ['u'] := by
  unfold userIdOf idCore
  rw [String.toList_append]
  change (if "msg_".toList.isPrefixOf (id.toList ++ ['u']) = true then _ else _) = _
  rw [prefix_append_u]
  split
  · next hprefix =>
      have hlength : 4 ≤ id.toList.length := (List.isPrefixOf_iff_prefix.mp hprefix).length_le
      exact List.drop_append_of_le_length hlength
  · rfl

theorem idCore_last {cs : List Char} (h : (idCore cs).getLast? = some 'u') :
    cs.getLast? = some 'u' := by
  unfold idCore at h
  split at h
  · rw [List.getLast?_drop] at h
    split at h
    · cases h
    · exact h
  · exact h

/-- No two records have ids that differ in the prefix alone. -/
def DistinctCores (messages : List JsonRecord) : Prop :=
  ∀ a ∈ messages, ∀ b ∈ messages,
    idCore (messageId a).toList = idCore (messageId b).toList → messageId a = messageId b

theorem DistinctCores.message_ids {messages : List JsonRecord} (h : DistinctCores messages)
    (hids : DistinctIds messages) {a b : JsonRecord} (ha : a ∈ messages) (hb : b ∈ messages)
    {id id' : String} (hid : id ∈ recordIds a) (hid' : id' ∈ recordIds b)
    (hcore : idCore id.toList = idCore id'.toList) : id = id' := by
  simp only [recordIds, List.mem_cons, List.not_mem_nil, or_false] at hid hid'
  rcases hid with rfl | rfl <;> rcases hid' with rfl | rfl
  · rw [idCore_userIdOf, idCore_userIdOf] at hcore
    rw [h a ha b hb (List.append_cancel_right hcore)]
  · rw [idCore_userIdOf] at hcore
    exact absurd (idCore_last (hcore ▸ List.getLast?_concat)) (hids.noUser b hb)
  · rw [idCore_userIdOf] at hcore
    exact absurd (idCore_last (hcore ▸ List.getLast?_concat)) (hids.noUser a ha)
  · exact h a ha b hb hcore

/-! ## Parents -/

/-- The record is a prompt that replies follow. -/
def isPrompt (message : JsonRecord) : Bool :=
  recordType message = some "user" || recordType message = some "synthetic"

theorem lastUserId_v1Record {ctx : MessageContext} {reading : Reading} {message : JsonRecord}
    {rest : List JsonRecord} (h : isPrompt message = false) :
    (v1Record ctx reading message rest).2.lastUserId = reading.lastUserId := by
  unfold v1Record
  split
  · rfl
  · rfl
  · next htype => simp [isPrompt, htype] at h
  · next htype => simp [isPrompt, htype] at h
  all_goals rfl

theorem outline_v1Record_prompt {ctx : MessageContext} {reading : Reading} {message : JsonRecord}
    {rest : List JsonRecord} (h : isPrompt message = true) :
    ((v1Record ctx reading message rest).2.lastUserId, none) ∈
      (v1Record ctx reading message rest).1.map outline := by
  unfold isPrompt at h
  rw [Bool.or_eq_true, decide_eq_true_eq, decide_eq_true_eq] at h
  unfold v1Record
  rcases h with htype | htype <;> rw [htype] <;> exact List.mem_singleton.mpr rfl

/-- A reply names the last prompt, or the user message its own record gave before it. -/
theorem parent_v1Record {ctx : MessageContext} {reading : Reading} {message : JsonRecord}
    {rest : List JsonRecord} {earlier later : List V1Message} {m : V1Message} {parent : String}
    (h : (v1Record ctx reading message rest).1 = earlier ++ m :: later)
    (hparent : m.info.parentID = some parent) :
    (recordType message = some "assistant" ∧ parent = reading.lastUserId) ∨
      (parent, none) ∈ earlier.map outline := by
  have hpair : ∀ {u a : V1Message}, [u, a] = earlier ++ m :: later → u.info.parentID = none →
      a.info.parentID = some u.info.id → (parent, none) ∈ earlier.map outline := by
    intro u a hsplit huser hreply
    match earlier, hsplit with
    | [], hsplit =>
        obtain ⟨rfl, -⟩ := List.cons.inj hsplit
        rw [huser] at hparent
        cases hparent
    | [_], hsplit =>
        obtain ⟨rfl, hrest⟩ := List.cons.inj hsplit
        obtain ⟨rfl, -⟩ := List.cons.inj hrest
        rw [hreply] at hparent
        cases hparent
        exact List.mem_singleton.mpr (by unfold outline; rw [huser])
    | _ :: _ :: _, hsplit =>
        have hlength := congrArg List.length hsplit
        simp at hlength
  have hone : ∀ {u : V1Message}, [u] = earlier ++ m :: later → u = m := by
    intro u hsplit
    cases earlier with
    | nil => exact (List.cons.inj hsplit).1
    | cons _ _ =>
        have hlength := congrArg List.length hsplit
        simp at hlength
  have huser : ∀ {u : V1Message}, [u] = earlier ++ m :: later → u.info.parentID = none →
      (parent, none) ∈ earlier.map outline := by
    intro u hsplit hnone
    rw [← hone hsplit, hnone] at hparent
    cases hparent
  unfold v1Record at h
  split at h
  · simp at h
  · simp at h
  · exact .inr (huser h rfl)
  · exact .inr (huser h rfl)
  · exact .inr (huser h rfl)
  · next htype =>
      rw [← hone h] at hparent
      cases hparent
      exact .inl ⟨htype, rfl⟩
  · exact .inr (hpair h rfl rfl)
  · unfold v1CompactionMessages at h
    dsimp only at h
    split at h
    · exact .inr (huser h rfl)
    · exact .inr (hpair h rfl rfl)
  · simp at h

/-- A message is of the records that come after the first, if its id is one of theirs. -/
theorem record_in_tail {message record : JsonRecord} {messages before after : List JsonRecord}
    (h : DistinctIds (message :: messages)) {ctx : MessageContext} {reading : Reading}
    {m : V1Message} (hm : m ∈ v1MessagesFrom ctx reading messages)
    (hrecords : message :: messages = before ++ record :: after)
    (hid : messageId record = m.info.id) :
    ∃ before', before = message :: before' ∧ messages = before' ++ record :: after := by
  cases before with
  | cons first before' =>
      obtain ⟨rfl, hrest⟩ := List.cons.inj hrecords
      exact ⟨before', rfl, hrest⟩
  | nil =>
      obtain ⟨rfl, rfl⟩ := List.cons.inj hrecords
      obtain ⟨message', hmem, hrecord⟩ := mem_v1MessagesFrom hm
      have hown : m.info.id ∈ recordIds message := by simp [recordIds, hid]
      have hsame := recordIds_disjoint (h.noUser message List.mem_cons_self)
        (h.noUser message' (List.mem_cons_of_mem _ hmem)) hown hrecord
      exact absurd (hsame ▸ List.mem_map.mpr ⟨message', hmem, rfl⟩)
        (List.nodup_cons.mp h.distinct).1

/-- The message a reply names stands before it, once a prompt was read or unless the reply
is that of an `assistant` record. -/
theorem parent_v1MessagesFrom {messages : List JsonRecord} (h : DistinctIds messages)
    {ctx : MessageContext} {reading : Reading} {outlines : List (String × Option String)}
    {prompted : Bool} (hprompted : prompted = true → (reading.lastUserId, none) ∈ outlines)
    {earlier later : List V1Message} {m : V1Message}
    (hsplit : v1MessagesFrom ctx reading messages = earlier ++ m :: later) {parent : String}
    (hparent : m.info.parentID = some parent) {before after : List JsonRecord}
    {record : JsonRecord} (hrecords : messages = before ++ record :: after)
    (hid : messageId record = m.info.id)
    (hcovered : prompted = true ∨ recordType record ≠ some "assistant" ∨
      ∃ prompt ∈ before, isPrompt prompt = true) :
    (parent, none) ∈ outlines ++ earlier.map outline := by
  induction messages generalizing reading outlines prompted earlier before with
  | nil => simp at hrecords
  | cons message messages ih =>
      -- the message is one of the records after the first, whose messages come before it
      have hlater : ∀ earlier', earlier = (v1Record ctx reading message messages).1 ++ earlier' →
          v1MessagesFrom ctx (v1Record ctx reading message messages).2 messages
            = earlier' ++ m :: later → (parent, none) ∈ outlines ++ earlier.map outline := by
        intro earlier' hearlier hrest
        have hm : m ∈ v1MessagesFrom ctx (v1Record ctx reading message messages).2 messages := by
          simp [hrest]
        obtain ⟨before', rfl, hrecords'⟩ := record_in_tail h hm hrecords hid
        have hparented := @ih h.tail (v1Record ctx reading message messages).2
          (outlines ++ (v1Record ctx reading message messages).1.map outline)
          (prompted || isPrompt message) ?_ earlier' hrest before' hrecords' ?_
        · rw [hearlier, List.map_append, ← List.append_assoc]
          exact hparented
        · intro hprompt
          rw [List.mem_append]
          cases hprompt' : isPrompt message with
          | true => exact .inr (outline_v1Record_prompt hprompt')
          | false =>
              rw [hprompt', Bool.or_false] at hprompt
              rw [lastUserId_v1Record hprompt']
              exact .inl (hprompted hprompt)
        · rcases hcovered with hcovered | htype | ⟨prompt, hmem, hprompt⟩
          · exact .inl (by rw [hcovered, Bool.true_or])
          · exact .inr (.inl htype)
          · rcases List.mem_cons.mp hmem with rfl | hmem
            · exact .inl (by rw [hprompt, Bool.or_true])
            · exact .inr (.inr ⟨prompt, hmem, hprompt⟩)
      rw [v1MessagesFrom] at hsplit
      rcases List.append_eq_append_iff.mp hsplit with ⟨earlier', hearlier, hrest⟩ |
        ⟨group, hgroup, hrest⟩
      · exact hlater earlier' hearlier hrest
      · cases group with
        | nil =>
            rw [List.append_nil] at hgroup
            exact hlater [] (by rw [hgroup, List.append_nil]) hrest.symm
        | cons first group =>
            obtain ⟨rfl, -⟩ := List.cons.inj hrest
            rw [List.mem_append]
            rcases parent_v1Record hgroup hparent with ⟨htype, rfl⟩ | hown
            · have hm : m ∈ (v1Record ctx reading message messages).1 := by simp [hgroup]
              have hfirst : record = message ∧ before = [] := by
                have hownId := (ids_v1Record ctx reading message messages).subset
                  (List.mem_map.mpr ⟨m, hm, rfl⟩)
                cases before with
                | nil => exact ⟨(List.cons.inj hrecords).1.symm, rfl⟩
                | cons _ before' =>
                    obtain ⟨rfl, rfl⟩ := List.cons.inj hrecords
                    have hmem : record ∈ before' ++ record :: after := by simp
                    have hsame := recordIds_disjoint (h.noUser message List.mem_cons_self)
                      (h.noUser record (List.mem_cons_of_mem _ hmem)) hownId
                      (by simp [recordIds, hid])
                    exact absurd (hsame ▸ List.mem_map.mpr ⟨record, hmem, rfl⟩)
                      (List.nodup_cons.mp h.distinct).1
              obtain ⟨rfl, rfl⟩ := hfirst
              rcases hcovered with hcovered | hnot | ⟨prompt, hmem, -⟩
              · exact .inl (hprompted hcovered)
              · exact absurd htype hnot
              · cases hmem
            · exact .inr hown

/-! ## Times and calls -/

/-- No record says that it was completed before it was created. -/
def CompletedAfter (messages : List JsonRecord) : Prop :=
  ∀ message ∈ messages, ∀ completed, num ((record message "time").getD []) "completed"
    = some completed → messageCreated message ≤ completed

theorem completed_v1Record {ctx : MessageContext} {reading : Reading} {message : JsonRecord}
    {rest : List JsonRecord} {m : V1Message} (h : m ∈ (v1Record ctx reading message rest).1)
    {completed : Int} (hcompleted : m.info.completed = some completed) :
    num ((record message "time").getD []) "completed" = some completed ∧
      m.info.created = messageCreated message := by
  have hone : ∀ {u : V1Message}, m ∈ [u] → u.info.completed = none →
      num ((record message "time").getD []) "completed" = some completed ∧
        m.info.created = messageCreated message := by
    intro u hm hnone
    rw [List.mem_singleton.mp hm, hnone] at hcompleted
    cases hcompleted
  have hpair : ∀ {u : V1Message} {info : AssistantInfo} {parts : List Part},
      m ∈ [u, { info := .assistant info, parts := parts }] → u.info.completed = none →
      info.completed = num ((record message "time").getD []) "completed" →
      info.created = messageCreated message →
      num ((record message "time").getD []) "completed" = some completed ∧
        m.info.created = messageCreated message := by
    intro u info parts hm hnone hsame hcreated
    rcases List.mem_cons.mp hm with rfl | hm
    · rw [hnone] at hcompleted
      cases hcompleted
    · rw [List.mem_singleton.mp hm] at hcompleted ⊢
      exact ⟨hsame.symm.trans hcompleted, hcreated⟩
  unfold v1Record at h
  split at h
  · cases h
  · cases h
  · exact hone h rfl
  · exact hone h rfl
  · exact hone h rfl
  · rw [List.mem_singleton.mp h] at hcompleted ⊢
    exact ⟨hcompleted, rfl⟩
  · exact hpair h rfl rfl rfl
  · unfold v1CompactionMessages at h
    dsimp only at h
    split at h
    · exact hone h rfl
    · exact hpair h rfl rfl rfl
  · cases h

theorem completed_v1MessagesFrom {messages : List JsonRecord} (h : CompletedAfter messages)
    {ctx : MessageContext} {reading : Reading} {m : V1Message}
    (hm : m ∈ v1MessagesFrom ctx reading messages) {completed : Int}
    (hcompleted : m.info.completed = some completed) : m.info.created ≤ completed := by
  induction messages generalizing reading with
  | nil => cases hm
  | cons message messages ih =>
      rw [v1MessagesFrom] at hm
      rcases List.mem_append.mp hm with hm | hm
      · obtain ⟨hrecord, hcreated⟩ := completed_v1Record hm hcompleted
        rw [hcreated]
        exact h message List.mem_cons_self completed hrecord
      · exact ih (fun message' hmem => h message' (List.mem_cons_of_mem _ hmem)) hm

theorem lastTime_ge (created : Int) (parts : List Part) : created ≤ lastTime created parts := by
  unfold lastTime
  induction parts generalizing created with
  | nil => exact Int.le_refl created
  | cons part parts ih =>
      refine Int.le_trans ?_ (ih _)
      exact Int.le_trans (Int.le_max_left _ _) (Int.le_max_left _ _)

theorem completed_storedMessage {m : V1Message}
    (h : ∀ completed, m.info.completed = some completed → m.info.created ≤ completed)
    {completed : Int} (hcompleted : (storedMessage m).info.completed = some completed) :
    (storedMessage m).info.created ≤ completed := by
  unfold storedMessage at hcompleted ⊢
  dsimp only at hcompleted ⊢
  rw [created_closed]
  cases hinfo : m.info with
  | user info =>
      rw [hinfo] at hcompleted
      cases hcompleted
  | assistant info =>
      rw [hinfo] at hcompleted h
      cases hown : info.completed with
      | none =>
          simp only [MessageInfo.closed, MessageInfo.completed, hown, Option.getD_none,
            Option.some.injEq] at hcompleted
          rw [← hcompleted]
          exact lastTime_ge _ _
      | some own =>
          simp only [MessageInfo.closed, MessageInfo.completed, hown, Option.getD_some,
            Option.some.injEq] at hcompleted
          rw [← hcompleted]
          exact h own hown

theorem completed_storedInfo {info : MessageInfo} (previous : Option (Int × String))
    (h : ∀ completed, info.completed = some completed → info.created ≤ completed)
    {completed : Int} (hcompleted : (storedInfo previous info).completed = some completed) :
    (storedInfo previous info).created ≤ completed := by
  unfold storedInfo at hcompleted ⊢
  split at hcompleted
  · cases info with
    | user info => cases hcompleted
    | assistant info =>
        obtain ⟨own, -, rfl⟩ := Option.map_eq_some_iff.mp hcompleted
        exact Int.le_max_right _ _
  · exact h completed hcompleted

/-- A call that waits for its end. -/
def ToolState.isOpen : ToolState → Bool
  | .pending _ _ => true
  | .running _ _ _ _ => true
  | _ => false

theorem settleState_settled (state : ToolState) (stop : Int) :
    (settleState state stop).isOpen = false := by
  cases state <;> rfl

theorem settleTool_settled {part : Part} {stop : Int} {call : ToolCall}
    (h : (settleTool part stop).body = .tool call) : call.state.isOpen = false := by
  unfold settleTool at h
  split at h
  · cases h
    exact settleState_settled _ _
  · next hnot => exact absurd h (hnot call)

theorem renumber_bodies (id : String) (parts : List Part) :
    (renumber id parts).map (·.body) = parts.map (·.body) := by
  unfold renumber
  rw [List.map_map]
  have hfst : parts = parts.zipIdx.map Prod.fst := (List.zipIdx_map_fst 0 parts).symm
  conv_rhs => rw [hfst, List.map_map]
  rfl

/-! ## The document -/

def ImportDocument.partIds (doc : ImportDocument) : List String :=
  (doc.messages.flatMap (·.parts)).map (·.id)

/-- What a document keeps of its session's order and identity. -/
structure KeepsOrder (stored : Engine2StoredSession) (doc : ImportDocument) : Prop where
  messages : doc.messages.mergeSort storedLe = doc.messages
  parts : ∀ m ∈ doc.messages, m.parts.length ≤ 10000 → m.parts.mergeSort partLe = m.parts
  ids : (doc.messages.map (·.info.id)).Nodup
  partIds : DistinctCores stored.messages → doc.partIds.Nodup
  /-- A reply after a prompt, and each reply that is not of an `assistant` record, has its
  parent before it. -/
  parents : ∀ before record after, stored.messages = before ++ record :: after →
    (recordType record ≠ some "assistant" ∨ ∃ prompt ∈ before, isPrompt prompt = true) →
    ∀ earlier m later parent, doc.messages = earlier ++ m :: later →
      m.info.id = messageId record → m.info.parentID = some parent →
      ∃ user ∈ earlier, user.info.id = parent ∧ user.info.parentID = none
  completed : CompletedAfter stored.messages → ∀ m ∈ doc.messages, ∀ completed,
    m.info.completed = some completed → m.info.created ≤ completed
  settled : ∀ m ∈ doc.messages, ∀ part ∈ m.parts, ∀ call, part.body = .tool call →
    call.state.isOpen = false

/-- A message of the document, and the one of `v1Messages` that it was made of. -/
theorem mem_document {messages : List V1Message} {m : V1Message}
    (h : m ∈ inStoredOrder (messages.map storedMessage)) : ∃ first ∈ messages, ∃ previous,
      m.info = storedInfo previous (storedMessage first).info ∧
        m.parts = renumber m.info.id (storedMessage first).parts := by
  obtain ⟨before, hbefore, previous, hinfo, hparts⟩ := mem_inStoredOrderFrom h
  obtain ⟨first, hfirst, rfl⟩ := List.mem_map.mp hbefore
  refine ⟨first, hfirst, previous, hinfo, ?_⟩
  rw [hparts, hinfo, id_storedInfo]

theorem outlines_document (messages : List V1Message) :
    (inStoredOrder (messages.map storedMessage)).map outline = messages.map outline := by
  rw [inStoredOrder, outlines_inStoredOrderFrom, List.map_map]
  exact List.map_congr_left fun m _ => outline_storedMessage m

theorem ids_document (messages : List V1Message) :
    (inStoredOrder (messages.map storedMessage)).map (·.info.id) = messages.map (·.info.id) := by
  have houtlines := congrArg (List.map Prod.fst) (outlines_document messages)
  rw [List.map_map, List.map_map] at houtlines
  exact houtlines

/-- A record of a session, created at a time. -/
def exampleRecord (id type : String) (time fields : JsonRecord) : JsonRecord :=
  [("id", .str id), ("type", .str type), ("time", .obj time)] ++ fields

/-- A prompt, a reply that is older than it, and a shell run. -/
def exampleSession : Engine2StoredSession where
  session := [("id", .str "ses_1")]
  messages :=
    [exampleRecord "msg_1" "user" [("created", .num 5)] [("text", .str "Hello")],
      exampleRecord "msg_2" "assistant" [("created", .num 3)]
        [("content", .arr [.obj [("type", .str "text"), ("text", .str "Hi")]])],
      exampleRecord "msg_3" "shell" [("created", .num 9)]
        [("command", .str "ls"), ("output", .str "a")]]

/-- Two replies whose ids differ in the prefix alone, one completed before it was created. -/
def twinSession : Engine2StoredSession where
  session := [("id", .str "ses_1")]
  messages :=
    [exampleRecord "a" "assistant" [("created", .num 5), ("completed", .num 3)] [],
      exampleRecord "msg_a" "assistant" [("created", .num 7)] []]

end OmniRush.Engine2
