/-
# The limits of the retained context

What holds of every family of retained records after any operation: how many records there are
and how long, their order, that no two come from one source, and that the counter is ahead of the
local records.
-/
import BetterCodex.RetainedCompleteness

namespace Retained

open RustStr JsonSize RetainedContext List Option Message
open scoped List

/-- The largest order. -/
def u64Max : ℕ := 2 ^ 64 - 1

/-! ## Families -/

section
variable {T : Type} {valueFields : T → List ℕ} {same : T → T → Prop}
variable {nextOrder nextOrder' : ℕ} {items items' : List (Ordered T)}

/-- **The invariant of a family.** -/
structure FamilyOk (valueFields : T → List ℕ) (same : T → T → Prop) (nextOrder : ℕ)
    (items : List (Ordered T)) : Prop where
  length_le : items.length ≤ maxFamilyRecords
  bytes_le : familyBytes valueFields items ≤ maxFamilyBytes
  record_le : ∀ e ∈ items, jsonObject (valueFields e.value) ≤ maxRecordBytes
  /-- Inherited records come before local ones, and each in their order. -/
  sorted : items.Pairwise fun a b => a.key ≤ b.key
  distinct : items.Pairwise fun a b => ¬ same a.value b.value
  order_lt : ∀ e ∈ items, e.inherited = false → e.order < nextOrder

/-- The records are within the limits of a family. -/
def Fits (valueFields : T → List ℕ) (items : List (Ordered T)) : Prop :=
  items.length ≤ maxFamilyRecords ∧ familyBytes valueFields items ≤ maxFamilyBytes

/-- No record is too long, no two come from one source, and no local one has the last order. -/
structure Clean (valueFields : T → List ℕ) (same : T → T → Prop) (items : List (Ordered T)) :
    Prop where
  record_le : ∀ e ∈ items, jsonObject (valueFields e.value) ≤ maxRecordBytes
  distinct : items.Pairwise fun a b => ¬ same a.value b.value
  order_lt : ∀ e ∈ items, e.inherited = false → e.order < u64Max

/-- **What the limits keep is clean.**  The latest of the records, as many as fit, are clean. -/
def CleanIn (valueFields : T → List ℕ) (same : T → T → Prop) (items : List (Ordered T)) : Prop :=
  ∀ latest, latest <:+ sortByKey items → Fits valueFields latest → Clean valueFields same latest

theorem succOrder_le (order : ℕ) : succOrder order ≤ u64Max := Nat.min_le_right _ _

theorem succOrder_of_lt {order : ℕ} (h : order < u64Max) : succOrder order = order + 1 :=
  Nat.min_eq_left h

theorem familyBytes_le_of_sublist (h : items' <+ items) :
    familyBytes valueFields items' ≤ familyBytes valueFields items := by
  have hsum := (h.map fun e => jsonObject (e.fields valueFields)).sum_le_sum
    (fun n _ => Nat.zero_le n)
  have hlength := h.length_le
  rw [familyBytes, familyBytes, jsonArray, jsonArray, length_map, length_map]
  omega

theorem FamilyOk.sublist (h : FamilyOk valueFields same nextOrder items) (hsub : items' <+ items)
    (hcounter : nextOrder ≤ nextOrder') : FamilyOk valueFields same nextOrder' items' where
  length_le := hsub.length_le.trans h.length_le
  bytes_le := (familyBytes_le_of_sublist hsub).trans h.bytes_le
  record_le e he := h.record_le e (hsub.subset he)
  sorted := h.sorted.sublist hsub
  distinct := h.distinct.sublist hsub
  order_lt e he hlocal := (h.order_lt e (hsub.subset he) hlocal).trans_le hcounter

theorem Clean.sublist (h : Clean valueFields same items) (hsub : items' <+ items) :
    Clean valueFields same items' where
  record_le e he := h.record_le e (hsub.subset he)
  distinct := h.distinct.sublist hsub
  order_lt e he := h.order_lt e (hsub.subset he)

theorem FamilyOk.clean (h : FamilyOk valueFields same nextOrder items)
    (hcounter : nextOrder ≤ u64Max) : Clean valueFields same items :=
  ⟨h.record_le, h.distinct, fun e he hlocal => (h.order_lt e he hlocal).trans_le hcounter⟩

/-! ### Eviction -/

theorem evict_suffix (items : List (Ordered T)) : (evict valueFields items).1 <:+ items := by
  induction items with
  | nil => exact suffix_rfl
  | cons e items ih =>
    rw [evict]
    split_ifs
    · exact ih.trans (suffix_cons e items)
    · exact suffix_rfl

theorem fits_evict (items : List (Ordered T)) : Fits valueFields (evict valueFields items).1 := by
  induction items with
  | nil => exact ⟨Nat.zero_le _, Nat.le_of_ble_eq_true rfl⟩
  | cons e items ih =>
    rw [evict]
    split_ifs with h
    · exact ih
    · exact ⟨not_lt.1 fun hlength => h (.inl hlength), not_lt.1 fun hbytes => h (.inr hbytes)⟩

/-- What is kept is the longest end that fits. -/
theorem suffix_evict_of_fits (h : items' <:+ items) (hfits : Fits valueFields items') :
    items' <:+ (evict valueFields items).1 := by
  induction items with
  | nil => exact h
  | cons e items ih =>
    rw [evict]
    split_ifs with hover
    · rcases suffix_cons_iff.1 h with rfl | h
      · rcases hover with hlength | hbytes
        · exact absurd hfits.1 (not_le.2 hlength)
        · exact absurd hfits.2 (not_le.2 hbytes)
      · exact ih h
    · exact h

variable {e : Ordered T}

theorem boundFamily_sublist (items : List (Ordered T)) (incomplete : Bool) :
    (boundFamily valueFields items incomplete).1 <+ sortByKey items :=
  (evict_suffix (sortByKey items)).sublist

theorem mem_of_mem_boundFamily {incomplete : Bool}
    (h : e ∈ (boundFamily valueFields items incomplete).1) : e ∈ items := by
  have hsorted := (boundFamily_sublist items incomplete).subset h
  exact (perm_insertionSort _ items).mem_iff.1 hsorted

theorem sortByKey_of_sorted (h : items.Pairwise fun a b => a.key ≤ b.key) :
    sortByKey items = items :=
  h.insertionSort_eq

/-- A bounded family keeps the invariant exactly if the latest of its records that fit are clean. -/
theorem familyOk_boundFamily_iff (hcounter : nextOrder ≤ u64Max)
    (horder : ∀ e ∈ items, e.inherited = false → succOrder e.order ≤ nextOrder) (incomplete : Bool) :
    FamilyOk valueFields same nextOrder (boundFamily valueFields items incomplete).1 ↔
      CleanIn valueFields same items := by
  constructor
  · intro hok latest hsuffix hfits
    exact (hok.clean hcounter).sublist (suffix_evict_of_fits hsuffix hfits).sublist
  · intro hclean
    have hfits : Fits valueFields (boundFamily valueFields items incomplete).1 := fits_evict _
    obtain ⟨hrecord, hdistinct, hlt⟩ := hclean _ (evict_suffix _) hfits
    refine ⟨hfits.1, hfits.2, hrecord, ?_, hdistinct, fun e he hlocal => ?_⟩
    · exact (pairwise_insertionSort (fun a b : Ordered T => a.key ≤ b.key) items).sublist
        (boundFamily_sublist items incomplete)
    · have hle := horder e (mem_of_mem_boundFamily he) hlocal
      rw [succOrder_of_lt (hlt e he hlocal)] at hle
      exact hle

theorem Clean.cleanIn (hsymm : ∀ a b, same a b → same b a) (h : Clean valueFields same items) :
    CleanIn valueFields same items := by
  intro latest hsuffix _
  have hperm : sortByKey items ~ items := perm_insertionSort _ items
  have hdistinct := (hperm.pairwise_iff fun {a b} (hab : ¬ same a.value b.value) hba =>
    hab (hsymm _ _ hba)).2 h.distinct
  have hsorted : Clean valueFields same (sortByKey items) :=
    ⟨fun e he => h.record_le e (hperm.mem_iff.1 he), hdistinct,
      fun e he => h.order_lt e (hperm.mem_iff.1 he)⟩
  exact hsorted.sublist hsuffix.sublist

/-! ### A new record -/

theorem Clean.concat (h : Clean valueFields same items) (hnew : ∀ a ∈ items, ¬ same a.value e.value)
    (hrecord : jsonObject (valueFields e.value) ≤ maxRecordBytes)
    (hlast : e.inherited = false → e.order < u64Max) : Clean valueFields same (items ++ [e]) := by
  refine ⟨forall_mem_append.2 ⟨h.record_le, forall_mem_singleton.2 hrecord⟩, ?_,
    forall_mem_append.2 ⟨h.order_lt, forall_mem_singleton.2 hlast⟩⟩
  refine pairwise_append.2 ⟨h.distinct, pairwise_singleton _ _, fun a ha b hb => ?_⟩
  rw [mem_singleton.1 hb]
  exact hnew a ha

variable {value : T} {p : Ordered T → Bool}

theorem not_same_of_find? (hp : ∀ a, p a = true ↔ same a.value value) (h : items.find? p = none) :
    ∀ a ∈ items, ¬ same a.value value :=
  fun a ha hsame => find?_eq_none.1 h a ha ((hp a).2 hsame)

/-- Without the record of a source that no other has there is none of it. -/
theorem not_same_of_mem_eraseP (hp : ∀ a, p a = true ↔ same a.value value)
    (hshare : ∀ a b, same a value → same b value → same a b)
    (h : items.Pairwise fun a b => ¬ same a.value b.value) :
    ∀ a ∈ items.eraseP p, ¬ same a.value value := by
  induction items with
  | nil => simp
  | cons x items ih =>
    obtain ⟨hx, hitems⟩ := pairwise_cons.1 h
    intro a ha hsame
    by_cases hpx : p x = true
    · rw [eraseP_cons_of_pos hpx] at ha
      exact hx a ha (hshare _ _ ((hp x).1 hpx) hsame)
    · rw [eraseP_cons_of_neg hpx] at ha
      rcases mem_cons.1 ha with rfl | ha
      · exact hpx ((hp a).2 hsame)
      · exact ih hitems a ha hsame

theorem Ordered.key_le_of_local {a b : Ordered T} (hb : b.inherited = false)
    (h : a.inherited = false → a.order ≤ b.order) : a.key ≤ b.key := by
  rw [Ordered.key, Ordered.key, hb]
  cases ha : a.inherited with
  | true => exact Prod.Lex.le_iff.2 (.inl Nat.zero_lt_one)
  | false => exact Prod.Lex.le_iff.2 (.inr ⟨rfl, h ha⟩)

/-- **A new record.**  A record from a source that the family does not have breaks the invariant
exactly if it is a local one with the last order. -/
theorem familyOk_push_iff (hsymm : ∀ a b, same a b → same b a)
    (h : FamilyOk valueFields same nextOrder items) (hcounter : nextOrder ≤ u64Max)
    (hnew : ∀ a ∈ items, ¬ same a.value e.value)
    (hrecord : jsonObject (valueFields e.value) ≤ maxRecordBytes)
    (hfits : e.inherited = false → familyBytes valueFields [e] ≤ maxFamilyBytes)
    (hnext : nextOrder ≤ nextOrder') (hnext' : nextOrder' ≤ u64Max)
    (horder : e.inherited = false → succOrder e.order ≤ nextOrder') (incomplete : Bool) :
    FamilyOk valueFields same nextOrder' (Retained.boundFamily valueFields (items ++ [e])
      incomplete).1 ↔ (e.inherited = false → e.order < u64Max) := by
  have hpast : ∀ a ∈ items ++ [e], a.inherited = false → succOrder a.order ≤ nextOrder' := by
    intro a ha hlocal
    rcases mem_append.1 ha with ha | ha
    · have hlt := h.order_lt a ha hlocal
      rw [succOrder_of_lt (hlt.trans_le hcounter)]
      exact (Nat.succ_le_of_lt hlt).trans hnext
    · obtain rfl := mem_singleton.1 ha
      exact horder hlocal
  rw [familyOk_boundFamily_iff hnext' hpast]
  constructor
  · intro hclean hlocal
    by_contra hlast
    -- with the last order the record stands at the end, so that it is kept
    have hsorted : (items ++ [e]).Pairwise fun a b => a.key ≤ b.key := by
      refine pairwise_append.2 ⟨h.sorted, pairwise_singleton _ _, fun a ha b hb => ?_⟩
      obtain rfl := mem_singleton.1 hb
      refine Ordered.key_le_of_local hlocal fun ha' => ?_
      have hlt := h.order_lt a ha ha'
      omega
    have hend : [e] <:+ sortByKey (items ++ [e]) := by
      rw [sortByKey_of_sorted hsorted]
      exact suffix_append items [e]
    have hkept := hclean [e] hend ⟨Nat.le_of_ble_eq_true rfl, hfits hlocal⟩
    exact hlast (hkept.order_lt e (mem_singleton_self e) hlocal)
  · intro hlast
    exact ((h.clean hcounter).concat hnew hrecord hlast).cleanIn hsymm

end

/-! ## Records -/

theorem escapedSize_le (c : Char) : escapedSize c ≤ 6 * c.utf8Size := by
  have hpos : 0 < c.utf8Size := Char.utf8Size_pos c
  rw [escapedSize]
  split_ifs
  · omega
  · omega
  · omega

theorem jsonString_le (s : Text) : jsonString s ≤ 2 + 6 * utf8Len s := by
  rw [jsonString]
  induction s with
  | nil => exact le_rfl
  | cons c s ih =>
    have hc := escapedSize_le c
    rw [map_cons, sum_cons, utf8Len_cons]
    omega

theorem jsonString_floorBytes_le (n : ℕ) (s : Text) : jsonString (floorBytes n s) ≤ 2 + 6 * n := by
  have hjson := jsonString_le (floorBytes n s)
  have hbytes := utf8Len_floorBytes_le n s
  omega

/-- A clipped message fits into a record. -/
theorem Message.jsonObject_bound_le (m : Message) : jsonObject m.bound.fields ≤ maxRecordBytes := by
  rw [bound]
  split_ifs with hlong
  · have hturn := jsonString_floorBytes_le maxIdBytes m.turnId
    have hid : jsonOption jsonString (m.messageId.map (floorBytes maxIdBytes)) ≤
        2 + 6 * maxIdBytes := by
      cases m.messageId with
      | none => exact by decide
      | some id => exact jsonString_floorBytes_le maxIdBytes id
    have hphase : ((m.phase.map fun phase =>
        jsonField "phase".toList (jsonString phase.name)).toList).sum ≤ 24 ∧
        ((m.phase.map fun phase =>
          jsonField "phase".toList (jsonString phase.name)).toList).length ≤ 1 := by
      cases m.phase with
      | none => decide
      | some phase => cases phase <;> decide
    have horigin : ((if m.origin = .heartbeat then
        [jsonField "origin".toList (jsonString "heartbeat".toList)] else [] : List ℕ)).sum ≤ 20 ∧
        ((if m.origin = .heartbeat then
          [jsonField "origin".toList (jsonString "heartbeat".toList)] else [] : List ℕ)).length ≤ 1 := by
      cases m.origin <;> decide
    have hkeys : jsonString "turn_id".toList = 9 ∧ jsonString "message_id".toList = 12 ∧
        jsonString "text".toList = 6 ∧ jsonString "complete".toList = 10 := by decide
    have hconstants : jsonString [] = 2 ∧ jsonBool false = 5 ∧ maxIdBytes = 1024 ∧
        maxRecordBytes = 16384 := by decide
    rw [jsonObject, fields, clip]
    simp only [sum_append, length_append, sum_cons, length_cons, sum_nil,
      length_nil, jsonField, hkeys, hconstants.1, hconstants.2.1]
    simp only [jsonField] at hphase horigin
    omega
  · exact not_lt.1 hlong

theorem Message.bound_of_le {m : Message} (h : jsonObject m.fields ≤ maxRecordBytes) :
    m.bound = m :=
  if_neg h.not_gt

theorem VerifiedAnswer.bound_of_le {a : VerifiedAnswer} (h : jsonObject a.fields ≤ maxRecordBytes) :
    a.bound = a :=
  if_neg h.not_gt

/-- A clipped answer fits into a record. -/
theorem VerifiedAnswer.jsonObject_bound_le (a : VerifiedAnswer) :
    jsonObject a.bound.fields ≤ maxRecordBytes := by
  rw [VerifiedAnswer.bound]
  split_ifs with hlong
  · have hturn := jsonString_floorBytes_le maxIdBytes a.turnId
    have hcall := jsonString_floorBytes_le maxIdBytes a.callId
    have hkeys : jsonString "turn_id".toList = 9 ∧ jsonString "call_id".toList = 9 ∧
        jsonString "questions".toList = 11 := by decide
    have hconstants : jsonArray [] = 2 ∧ maxIdBytes = 1024 ∧ maxRecordBytes = 16384 := by decide
    rw [jsonObject, VerifiedAnswer.fields, VerifiedAnswer.clip]
    simp only [sum_cons, length_cons, sum_nil, length_nil, map_nil, jsonField, hkeys, hconstants.1]
    omega
  · exact not_lt.1 hlong

theorem jsonNat_le {n : ℕ} (h : n ≤ u64Max) : jsonNat n ≤ 20 := by
  rw [jsonNat]
  exact Nat.toDigits_length 10 n 20 (by decide) (h.trans_lt (by decide))

/-- One record fits into a family. -/
theorem familyBytes_singleton_le {T : Type} {valueFields : T → List ℕ} {e : Ordered T}
    (hrecord : jsonObject (valueFields e.value) ≤ maxRecordBytes)
    (hrevision : ∀ id ∈ e.revision, jsonString id ≤ 64) (horder : e.order ≤ u64Max) :
    familyBytes valueFields [e] ≤ maxFamilyBytes := by
  have hdigits := jsonNat_le horder
  have hrev : ((e.revision.map fun id => jsonField "revision".toList (jsonString id)).toList).sum ≤
      75 ∧ ((e.revision.map fun id =>
        jsonField "revision".toList (jsonString id)).toList).length ≤ 1 := by
    cases hid : e.revision with
    | none => decide
    | some id =>
      have hlength := hrevision id hid
      have hkey : jsonString "revision".toList = 10 := by decide
      simp only [map_some, toList_some, sum_cons, sum_nil, length_cons, length_nil, jsonField, hkey]
      omega
  have hinherited : ((if e.inherited then [jsonField "inherited".toList (jsonBool true)] else [] :
      List ℕ)).sum ≤ 16 ∧ ((if e.inherited then [jsonField "inherited".toList (jsonBool true)] else
        [] : List ℕ)).length ≤ 1 := by
    cases e.inherited <;> decide
  have hkey : jsonString "order".toList = 7 := by decide
  have horderField : jsonField "order".toList (jsonNat e.order) = 8 + jsonNat e.order := by
    rw [jsonField, hkey]
  rw [jsonObject, maxRecordBytes] at hrecord
  simp only [familyBytes, jsonArray, jsonObject, Ordered.fields, map_cons, map_nil,
    sum_cons, sum_nil, length_cons, length_nil, sum_append,
    length_append, horderField]
  rw [maxFamilyBytes]
  omega

/-! ## The context -/

/-- Two messages with one id. -/
def SameMessage (a b : Message) : Prop := ∃ id, a.messageId = some id ∧ b.messageId = some id

/-- Two answers to one call. -/
def SameCall (a b : VerifiedAnswer) : Prop := a.turnId = b.turnId ∧ a.callId = b.callId

/-- Two deliveries of one message. -/
def SameDelivery (a b : SenderUserMessages) : Prop := a.receiverMessageId = b.receiverMessageId

theorem SameMessage.symm (a b : Message) (h : SameMessage a b) : SameMessage b a := by
  obtain ⟨id, ha, hb⟩ := h
  exact ⟨id, hb, ha⟩

theorem SameCall.symm (a b : VerifiedAnswer) (h : SameCall a b) : SameCall b a :=
  ⟨h.1.symm, h.2.symm⟩

theorem SameMessage.share (m a b : Message) (ha : SameMessage a m) (hb : SameMessage b m) :
    SameMessage a b := by
  obtain ⟨id, ha, hm⟩ := ha
  obtain ⟨id', hb, hm'⟩ := hb
  cases hm.symm.trans hm'
  exact ⟨id, ha, hb⟩

theorem SameCall.share (m a b : VerifiedAnswer) (ha : SameCall a m) (hb : SameCall b m) :
    SameCall a b :=
  ⟨ha.1.trans hb.1.symm, ha.2.trans hb.2.symm⟩

theorem sameId_eq_true_iff (message : Message) (e : Ordered Message) :
    sameId message e = true ↔ SameMessage e.value message := by
  rw [sameId, Bool.and_eq_true, isSome_iff_exists, beq_iff_eq]
  constructor
  · rintro ⟨⟨id, hid⟩, he⟩
    exact ⟨id, he.trans hid, hid⟩
  · rintro ⟨id, he, hid⟩
    exact ⟨⟨id, hid⟩, he.trans hid.symm⟩

theorem sameCall_eq_true_iff (answer : VerifiedAnswer) (e : Ordered VerifiedAnswer) :
    sameCall answer e = true ↔ SameCall e.value answer := by
  rw [sameCall, Bool.and_eq_true, beq_iff_eq, beq_iff_eq, SameCall]

/-- **The invariant of a context.**  Every family keeps its own, and the counter is a `u64`. -/
structure Kept (c : RetainedContext) : Prop where
  answers : FamilyOk VerifiedAnswer.fields SameCall c.nextOrder c.verifiedAnswers
  users : FamilyOk Message.fields SameMessage c.nextOrder c.userMessages
  assistants : FamilyOk Message.fields SameMessage c.nextOrder c.assistantMessages
  senders : FamilyOk SenderUserMessages.fields SameDelivery c.nextOrder c.senderDeliveries
  counter : c.nextOrder ≤ u64Max

/-- The acceptance order of a source, if there is one, is a `u64`. -/
def InputSource.InRange (source : InputSource) : Prop :=
  ∀ order ∈ source.acceptanceOrder, order ≤ u64Max

/-- The operations on a retained context, with what their types say: orders are `u64`s, and a new
revision is `retained_` with a UUID. -/
inductive Operation
  | recordUserMessage (message : Message) (source : InputSource) (revision : Text)
      (hsource : source.InRange) (hrevision : jsonString revision ≤ 64)
  | recordAssistantMessage (message : Message) (source : InputSource) (revision : Text)
      (hsource : source.InRange) (hrevision : jsonString revision ≤ 64)
  | recordAnswer (answer : VerifiedAnswer) (acceptanceOrder : Option ℕ)
      (horder : ∀ order ∈ acceptanceOrder, order ≤ u64Max)
  | recordDelivered (message : Message) (acceptanceOrder : ℕ) (revision : Text)
      (horder : acceptanceOrder ≤ u64Max) (hrevision : jsonString revision ≤ 64)
  | restore (checkpoint : Option RetainedContext) (surviving : List ItemMetadata)
      (hcounter : ∀ c ∈ checkpoint, c.nextOrder ≤ u64Max)
  | rollback (turnIds : List Text) (firstRemovedMessageId : Option Text) (source : InputSource)

variable (c : RetainedContext)

/-- One operation. -/
def RetainedContext.operate : Operation → RetainedContext
  | .recordUserMessage message source revision _ _ => (c.recordUserMessage message source revision).1
  | .recordAssistantMessage message source revision _ _ =>
    (c.recordAssistantMessage message source revision).1
  | .recordAnswer answer acceptanceOrder _ => (c.record [] (.verifiedAnswer answer acceptanceOrder)).1
  | .recordDelivered message acceptanceOrder revision _ _ =>
    (c.record revision (.deliveredAssistantMessage message acceptanceOrder)).1
  | .restore checkpoint surviving _ => restore checkpoint surviving
  | .rollback turnIds firstRemovedMessageId source => c.rollback turnIds firstRemovedMessageId source

/-- A message is stored: it is no repeated heartbeat, and the family does not have it as it is. -/
def StoresUserMessage (message : Message) (source : InputSource) : Prop :=
  c.repeatedHeartbeat message.bound (source = .inherited) = none ∧
    ∀ e, c.userMessages.find? (sameId message.bound) = some e →
      ¬ (e.value = message.bound ∧ e.inherited = decide (source = .inherited))

/-- An assistant message is stored: it has an order and a text, and the family does not have it as
it is. -/
def StoresAssistantMessage (message : Message) (source : InputSource) : Prop :=
  source ≠ .acceptedAt none ∧ (message.bound.complete && message.bound.text.isEmpty) = false ∧
    ∀ e, c.assistantMessages.find? (sameId message.bound) = some e →
      ¬ (e.value = message.bound ∧ e.inherited = decide (source = .inherited))

/-- A new local record gets an order that is not the last. -/
def OrderLeft (source : InputSource) : Prop :=
  source ≠ .inherited → source.acceptanceOrder.getD c.nextOrder < u64Max

/-- What a checkpoint's deliveries and surviving items have to be.  The delivery of an item is passed
over if its message is among the latest that fit; or else it is placed behind these by its order.
At the end the latest that fit are clean. -/
def CleanDeliveries : List (Ordered SenderUserMessages) → ℕ → List ItemMetadata → Prop
  | items, _, [] => CleanIn SenderUserMessages.fields SameDelivery items
  | items, nextOrder, metadata :: surviving =>
    match metadata.senderUserMessages with
    | none => CleanDeliveries items nextOrder surviving
    | some messages =>
      let latest := (boundFamily SenderUserMessages.fields items false).1
      let order := metadata.userInputOrder.getD nextOrder
      if latest.any (·.value.receiverMessageId == messages.receiverMessageId) then
        CleanDeliveries items nextOrder surviving
      else
        CleanDeliveries (latest ++ [{ order, value := messages.bound }])
          (max nextOrder (succOrder order)) surviving

/-- **What can be restored.**  Of each family of a checkpoint, with its records cut, the latest that
fit are clean; and so are the deliveries with those of the surviving items. -/
structure SoundRestore (checkpoint : Option RetainedContext) (surviving : List ItemMetadata) :
    Prop where
  answers : CleanIn VerifiedAnswer.fields SameCall (cutRecords checkpoint).verifiedAnswers
  users : CleanIn fields SameMessage (cutRecords checkpoint).userMessages
  assistants : CleanIn fields SameMessage (cutRecords checkpoint).assistantMessages
  senders : CleanDeliveries (cutDeliveries checkpoint) (cutRecords checkpoint).nextOrder surviving

/-- The operations that keep the invariant: a local record that is stored does not get the last
order, and what is restored can be. -/
def Sound : Operation → Prop
  | .recordUserMessage message source _ _ _ => StoresUserMessage c message source → OrderLeft c source
  | .recordAssistantMessage message source _ _ _ =>
    StoresAssistantMessage c message source → OrderLeft c source
  | .recordAnswer answer acceptanceOrder _ =>
    (∀ e, c.verifiedAnswers.find? (sameCall answer.bound) = some e → e.value ≠ answer.bound) →
      acceptanceOrder.getD c.nextOrder < u64Max
  | .recordDelivered message acceptanceOrder _ _ _ =>
    StoresAssistantMessage c message (.acceptedAt (some acceptanceOrder)) → acceptanceOrder < u64Max
  | .restore checkpoint surviving _ => SoundRestore checkpoint surviving
  | .rollback .. => True

/-! ### Recording -/

variable {items : List (Ordered Message)} {message : Message}

theorem newOrder_fields (source : InputSource) :
    (c.newOrder source).2 = { c with nextOrder := (c.newOrder source).2.nextOrder } := by
  rw [newOrder]
  split_ifs
  · rfl
  · rfl

/-- The counter only grows, and reaches the successor of the order it hands out. -/
theorem newOrder_nextOrder (source : InputSource) (hcounter : c.nextOrder ≤ u64Max) :
    c.nextOrder ≤ (c.newOrder source).2.nextOrder ∧ (c.newOrder source).2.nextOrder ≤ u64Max ∧
      (source ≠ .inherited → (c.newOrder source).1 = source.acceptanceOrder.getD c.nextOrder ∧
        succOrder (c.newOrder source).1 ≤ (c.newOrder source).2.nextOrder) := by
  rw [newOrder]
  split_ifs with h
  · exact ⟨le_rfl, hcounter, fun hne => absurd h hne⟩
  · exact ⟨le_max_left _ _, max_le hcounter (succOrder_le _), fun _ => ⟨rfl, le_max_right _ _⟩⟩

/-- The entry for a new message. -/
def newEntry (message : Message) (source : InputSource) (revision : Text) : Ordered Message where
  revision := message.messageId.map fun _ => revision
  inherited := source = .inherited
  order := (c.newOrder source).1
  value := message

variable {c : RetainedContext} {source : InputSource} {revision : Text}

/-- A new message keeps its family in order if it has an order left. -/
theorem familyOk_newEntry_iff (hcounter : c.nextOrder ≤ u64Max)
    (h : FamilyOk fields SameMessage c.nextOrder items)
    (hrecord : jsonObject message.fields ≤ maxRecordBytes)
    (hnew : ∀ a ∈ items, ¬ SameMessage a.value message) (hsource : source.InRange)
    (hrevision : jsonString revision ≤ 64) (incomplete : Bool) :
    FamilyOk fields SameMessage (c.newOrder source).2.nextOrder
      (boundFamily fields (items ++ [newEntry c message source revision]) incomplete).1 ↔
      OrderLeft c source := by
  obtain ⟨hle, hle', hlocal⟩ := newOrder_nextOrder c source hcounter
  have hinherited : (newEntry c message source revision).inherited = false ↔ source ≠ .inherited :=
    decide_eq_false_iff_not
  have hrange : source ≠ .inherited → (newEntry c message source revision).order ≤ u64Max := by
    intro hne
    change (c.newOrder source).1 ≤ u64Max
    rw [(hlocal hne).1]
    cases horder : source.acceptanceOrder with
    | none => exact hcounter
    | some order => exact hsource order horder
  have hfits : (newEntry c message source revision).inherited = false →
      familyBytes fields [newEntry c message source revision] ≤ maxFamilyBytes := by
    intro hne
    have hshort : ∀ id ∈ (newEntry c message source revision).revision, jsonString id ≤ 64 := by
      intro id hid
      obtain ⟨_, -, rfl⟩ := map_eq_some_iff.1 hid
      exact hrevision
    exact familyBytes_singleton_le (e := newEntry c message source revision) hrecord hshort
      (hrange (hinherited.1 hne))
  have hpush := familyOk_push_iff (e := newEntry c message source revision) SameMessage.symm h
    hcounter hnew hrecord hfits hle hle' (fun hne => (hlocal (hinherited.1 hne)).2) incomplete
  rw [OrderLeft, hpush, hinherited]
  refine forall_congr' fun hne => ?_
  rw [← (hlocal hne).1]
  rfl

/-- A new user message keeps the invariant if it has an order left. -/
theorem kept_pushUserMessage_iff (h : Kept c) (hrecord : jsonObject message.fields ≤ maxRecordBytes)
    (hnew : ∀ a ∈ c.userMessages, ¬ SameMessage a.value message) (hsource : source.InRange)
    (hrevision : jsonString revision ≤ 64) :
    Kept (c.pushUserMessage message source revision).1 ↔ OrderLeft c source := by
  obtain ⟨hle, hle', -⟩ := newOrder_nextOrder c source h.counter
  have hpush : (c.pushUserMessage message source revision).1 =
      { c with
        nextOrder := (c.newOrder source).2.nextOrder
        userMessages := (boundFamily fields
          (c.userMessages ++ [newEntry c message source revision]) c.userMessagesIncomplete).1
        userMessagesIncomplete := (boundFamily fields
          (c.userMessages ++ [newEntry c message source revision]) c.userMessagesIncomplete).2 } := by
    rw [pushUserMessage]
    dsimp only
    rw [newOrder_fields]
    rfl
  rw [hpush, ← familyOk_newEntry_iff h.counter h.users hrecord hnew hsource hrevision
    c.userMessagesIncomplete]
  exact ⟨fun hafter => hafter.users, fun hafter =>
    ⟨h.answers.sublist (.refl _) hle, hafter,
      h.assistants.sublist (.refl _) hle, h.senders.sublist (.refl _) hle,
      hle'⟩⟩

theorem Kept.sublist {c' : RetainedContext} (h : Kept c)
    (hanswers : c'.verifiedAnswers <+ c.verifiedAnswers)
    (husers : c'.userMessages <+ c.userMessages)
    (hassistants : c'.assistantMessages <+ c.assistantMessages)
    (hsenders : c'.senderDeliveries <+ c.senderDeliveries) (hnext : c.nextOrder ≤ c'.nextOrder)
    (hcounter : c'.nextOrder ≤ u64Max) : Kept c' :=
  ⟨h.answers.sublist hanswers hnext, h.users.sublist husers hnext,
    h.assistants.sublist hassistants hnext, h.senders.sublist hsenders hnext, hcounter⟩

/-- User messages: only a stored one can break the invariant. -/
theorem kept_recordUserMessage_iff (h : Kept c) (message : Message) (hsource : source.InRange)
    (hrevision : jsonString revision ≤ 64) :
    Kept (c.recordUserMessage message source revision).1 ↔
      (StoresUserMessage c message source → OrderLeft c source) := by
  have hrecord := message.jsonObject_bound_le
  rw [recordUserMessage, StoresUserMessage]
  dsimp only
  cases hrepeated : c.repeatedHeartbeat message.bound (source = .inherited) with
  | some e => exact iff_of_true h fun hstores => absurd hstores.1 (by simp)
  | none =>
    dsimp only
    cases hfind : c.userMessages.find? (sameId message.bound) with
    | none =>
      have hmarked : Kept { c with verifiedAnswersIncomplete :=
          c.verifiedAnswersIncomplete || decide (source = .inherited) } :=
        ⟨h.answers, h.users, h.assistants, h.senders, h.counter⟩
      have hpush := kept_pushUserMessage_iff hmarked hrecord (not_same_of_find? (sameId_eq_true_iff _) hfind)
        hsource hrevision
      exact hpush.trans ⟨fun hleft _ => hleft, fun hleft => hleft ⟨rfl, by simp⟩⟩
    | some e =>
      dsimp only
      split_ifs with hsame
      · refine iff_of_true ⟨h.answers, h.users, h.assistants, h.senders, h.counter⟩ ?_
        exact fun hstores => absurd hsame (hstores.2 e rfl)
      · have herased : Kept { c with
            verifiedAnswersIncomplete :=
              c.verifiedAnswersIncomplete || decide (source = .inherited)
            userMessages := c.userMessages.eraseP (sameId message.bound) } :=
          h.sublist (.refl _) eraseP_sublist (.refl _)
            (.refl _) le_rfl h.counter
        have hpush := kept_pushUserMessage_iff herased hrecord
          (not_same_of_mem_eraseP (sameId_eq_true_iff _) (SameMessage.share _) h.users.distinct) hsource hrevision
        refine hpush.trans ⟨fun hleft _ => hleft, fun hleft => hleft ⟨rfl, fun e' he' => ?_⟩⟩
        rw [← some.inj he']
        exact hsame

/-- So does an assistant message, unless it is empty. -/
theorem kept_pushAssistantMessage_iff (h : Kept c)
    (hrecord : jsonObject message.fields ≤ maxRecordBytes)
    (hnew : ∀ a ∈ c.assistantMessages, ¬ SameMessage a.value message) (hsource : source.InRange)
    (hrevision : jsonString revision ≤ 64) (isEmpty : Bool) :
    Kept (recordAssistantMessage.push source revision c message isEmpty).1 ↔
      (isEmpty = false → OrderLeft c source) := by
  obtain ⟨hle, hle', -⟩ := newOrder_nextOrder c source h.counter
  rw [recordAssistantMessage.push]
  dsimp only
  rw [newOrder_fields]
  cases isEmpty with
  | true =>
    refine iff_of_true ?_ (by simp)
    exact h.sublist (.refl _) (.refl _) (.refl _)
      (.refl _) hle hle'
  | false =>
    rw [if_neg Bool.false_ne_true]
    have hentry := familyOk_newEntry_iff h.counter h.assistants hrecord hnew hsource hrevision
      c.assistantMessagesIncomplete
    refine Iff.trans ⟨fun hafter => hafter.assistants, fun hafter => ?_⟩
      (hentry.trans ⟨fun hleft _ => hleft, fun hleft => hleft rfl⟩)
    exact ⟨h.answers.sublist (.refl _) hle, h.users.sublist (.refl _) hle,
      hafter, h.senders.sublist (.refl _) hle, hle'⟩

/-- Assistant messages: only a stored one can break the invariant. -/
theorem kept_recordAssistantMessage_iff (h : Kept c) (message : Message) (hsource : source.InRange)
    (hrevision : jsonString revision ≤ 64) :
    Kept (c.recordAssistantMessage message source revision).1 ↔
      (StoresAssistantMessage c message source → OrderLeft c source) := by
  have hrecord := message.jsonObject_bound_le
  rw [recordAssistantMessage, StoresAssistantMessage]
  by_cases hunordered : source = .acceptedAt none
  · rw [if_pos hunordered]
    exact iff_of_true h fun hstores => absurd hunordered hstores.1
  rw [if_neg hunordered]
  dsimp only
  cases hfind : c.assistantMessages.find? (sameId message.bound) with
  | none =>
    have hpush := kept_pushAssistantMessage_iff h hrecord (not_same_of_find? (sameId_eq_true_iff _) hfind) hsource
      hrevision (message.bound.complete && message.bound.text.isEmpty)
    refine hpush.trans ⟨fun hleft hstores => hleft hstores.2.1, fun hleft hempty => ?_⟩
    exact hleft ⟨hunordered, hempty, by simp⟩
  | some e =>
    dsimp only
    split_ifs with hsame
    · exact iff_of_true h fun hstores => absurd ⟨hsame.1, hsame.2.1⟩ (hstores.2.2 e rfl)
    · have herased : Kept { c with
          assistantMessages := c.assistantMessages.eraseP (sameId message.bound) } :=
        h.sublist (.refl _) (.refl _) eraseP_sublist
          (.refl _) le_rfl h.counter
      have hpush := kept_pushAssistantMessage_iff herased hrecord
        (not_same_of_mem_eraseP (sameId_eq_true_iff _) (SameMessage.share _) h.assistants.distinct) hsource hrevision
        (message.bound.complete && message.bound.text.isEmpty)
      refine hpush.trans ⟨fun hleft hstores => hleft hstores.2.1, fun hleft hempty => ?_⟩
      refine hleft ⟨hunordered, hempty, fun e' he' hsame' => ?_⟩
      rw [← some.inj he'] at hsame'
      exact hsame ⟨hsame'.1, hsame'.2, hempty⟩

/-- A delivered message that the family has as it is would not be stored either. -/
theorem kept_recordDelivered_iff (h : Kept c) (message : Message) {acceptanceOrder : ℕ}
    (horder : acceptanceOrder ≤ u64Max) (hrevision : jsonString revision ≤ 64) :
    Kept (c.record revision (.deliveredAssistantMessage message acceptanceOrder)).1 ↔
      (StoresAssistantMessage c message (.acceptedAt (some acceptanceOrder)) →
        acceptanceOrder < u64Max) := by
  have hsource : InputSource.InRange (.acceptedAt (some acceptanceOrder)) := by
    intro order hsome
    rw [← some.inj hsome]
    exact horder
  have hassistant := kept_recordAssistantMessage_iff h message.bound hsource hrevision
  rw [StoresAssistantMessage, message.bound_bound] at hassistant
  rw [record, StoresAssistantMessage]
  split_ifs with hknown
  · refine iff_of_true h fun hstores => ?_
    obtain ⟨e, he, hsame⟩ := any_eq_true.1 hknown
    simp only [Bool.and_eq_true, beq_iff_eq, Bool.not_eq_true'] at hsame
    obtain ⟨⟨⟨hid, hsameId⟩, hvalue⟩, hlocal⟩ := hsame
    obtain ⟨id, hid⟩ := isSome_iff_exists.1 hid
    -- the record that is found first is this one, since no other has its id
    cases hfind : c.assistantMessages.find? (sameId message.bound) with
    | none => exact absurd ⟨id, hsameId.trans hid, hid⟩ (not_same_of_find? (sameId_eq_true_iff _) hfind e he)
    | some e' =>
      have hfound := (sameId_eq_true_iff message.bound e').1 (find?_some hfind)
      have heq : e' = e := by
        by_contra hne
        have hsymm : Std.Symm fun a b : Ordered Message => ¬ SameMessage a.value b.value :=
          ⟨fun _ _ hab hba => hab (SameMessage.symm _ _ hba)⟩
        refine h.assistants.distinct.forall (mem_of_find?_eq_some hfind) he hne ?_
        rw [hvalue]
        exact hfound
      refine absurd ?_ (hstores.2.2 e' hfind)
      rw [heq]
      exact ⟨hvalue, hlocal⟩
  · refine hassistant.trans (imp_congr_right fun _ => ?_)
    exact ⟨fun hleft => hleft InputSource.noConfusion, fun hlt _ => hlt⟩

/-- A new answer keeps the invariant if its order is not the last. -/
theorem kept_pushVerifiedAnswer_iff (h : Kept c) {answer : VerifiedAnswer}
    (hrecord : jsonObject answer.fields ≤ maxRecordBytes)
    (hnew : ∀ a ∈ c.verifiedAnswers, ¬ SameCall a.value answer) {acceptanceOrder : Option ℕ}
    (horder : ∀ order ∈ acceptanceOrder, order ≤ u64Max) :
    Kept (c.pushVerifiedAnswer answer acceptanceOrder) ↔
      acceptanceOrder.getD c.nextOrder < u64Max := by
  have hrange : acceptanceOrder.getD c.nextOrder ≤ u64Max := by
    cases acceptanceOrder with
    | none => exact h.counter
    | some order => exact horder order rfl
  have hle : c.nextOrder ≤ max c.nextOrder (succOrder (acceptanceOrder.getD c.nextOrder)) :=
    le_max_left _ _
  have hle' : max c.nextOrder (succOrder (acceptanceOrder.getD c.nextOrder)) ≤ u64Max :=
    max_le h.counter (succOrder_le _)
  have hfits := familyBytes_singleton_le
    (e := ({ order := acceptanceOrder.getD c.nextOrder, value := answer } : Ordered VerifiedAnswer))
    hrecord (nofun) hrange
  have hpush := familyOk_push_iff
    (e := ({ order := acceptanceOrder.getD c.nextOrder, value := answer } : Ordered VerifiedAnswer))
    SameCall.symm h.answers h.counter hnew hrecord (fun _ => hfits) hle hle'
    (fun _ => le_max_right _ _) c.verifiedAnswersIncomplete
  refine Iff.trans ⟨fun hafter => hafter.answers, fun hafter => ?_⟩
    (hpush.trans ⟨fun hlt => hlt rfl, fun hlt _ => hlt⟩)
  exact ⟨hafter, h.users.sublist (.refl _) hle,
    h.assistants.sublist (.refl _) hle, h.senders.sublist (.refl _) hle,
    hle'⟩

/-- Answers: one that is stored already changes nothing. -/
theorem kept_recordVerifiedAnswer_iff (h : Kept c) (answer : VerifiedAnswer)
    {acceptanceOrder : Option ℕ} (horder : ∀ order ∈ acceptanceOrder, order ≤ u64Max) :
    Kept (c.recordVerifiedAnswer answer acceptanceOrder).1 ↔
      ((∀ e, c.verifiedAnswers.find? (sameCall answer.bound) = some e → e.value ≠ answer.bound) →
        acceptanceOrder.getD c.nextOrder < u64Max) := by
  have hrecord := answer.jsonObject_bound_le
  rw [recordVerifiedAnswer]
  cases hfind : c.verifiedAnswers.find? (sameCall answer.bound) with
  | none =>
    have hpush := kept_pushVerifiedAnswer_iff h hrecord (not_same_of_find? (sameCall_eq_true_iff _) hfind) horder
    exact hpush.trans ⟨fun hlt _ => hlt, fun hlt => hlt (by simp)⟩
  | some e =>
    dsimp only
    split_ifs with hsame
    · exact iff_of_true h fun hstores => absurd hsame (hstores e rfl)
    · have herased : Kept { c with
          verifiedAnswers := c.verifiedAnswers.eraseP (sameCall answer.bound) } :=
        h.sublist eraseP_sublist (.refl _) (.refl _)
          (.refl _) le_rfl h.counter
      have hpush := kept_pushVerifiedAnswer_iff herased hrecord
        (not_same_of_mem_eraseP (sameCall_eq_true_iff _) (SameCall.share _) h.answers.distinct) horder
      refine hpush.trans ⟨fun hlt _ => hlt, fun hlt => hlt fun e' he' => ?_⟩
      rw [← some.inj he']
      exact hsame

/-! ### Rolling back and restoring -/

theorem kept_rollback (h : Kept c) (turnIds : List Text) (firstRemovedMessageId : Option Text)
    (source : InputSource) : Kept (c.rollback turnIds firstRemovedMessageId source) := by
  rw [rollback]
  split
  · exact h.sublist filter_sublist filter_sublist filter_sublist
      filter_sublist le_rfl h.counter
  · exact h.sublist filter_sublist filter_sublist filter_sublist
      filter_sublist le_rfl h.counter

/-- The fold that takes the counter past some orders. -/
theorem foldl_max_succOrder (orders : List ℕ) (next : ℕ) :
    next ≤ orders.foldl (fun next order => max next (succOrder order)) next ∧
      (∀ order ∈ orders,
        succOrder order ≤ orders.foldl (fun next order => max next (succOrder order)) next) ∧
      (next ≤ u64Max →
        orders.foldl (fun next order => max next (succOrder order)) next ≤ u64Max) := by
  induction orders generalizing next with
  | nil => exact ⟨le_rfl, nofun, id⟩
  | cons order orders ih =>
    obtain ⟨hle, hall, hrange⟩ := ih (max next (succOrder order))
    refine ⟨(le_max_left _ _).trans hle, fun order' horder' => ?_, fun hnext => ?_⟩
    · rcases mem_cons.1 horder' with rfl | horder'
      · exact (le_max_right _ _).trans hle
      · exact hall order' horder'
    · exact hrange (max_le hnext (succOrder_le _))

/-- What recording deliveries changes: their family, and the counter, which does not fall. -/
structure Delivered (c c' : RetainedContext) : Prop where
  fields : c' = { c with senderDeliveries := c'.senderDeliveries, nextOrder := c'.nextOrder }
  le : c.nextOrder ≤ c'.nextOrder
  counter : c.nextOrder ≤ u64Max → c'.nextOrder ≤ u64Max

theorem Delivered.refl (c : RetainedContext) : Delivered c c := ⟨rfl, le_rfl, id⟩

theorem Delivered.trans {c' c'' : RetainedContext} (h : Delivered c c') (h' : Delivered c' c'') :
    Delivered c c'' := by
  refine ⟨?_, h.le.trans h'.le, h'.counter ∘ h.counter⟩
  rw [h'.fields, h.fields]

theorem delivered_recordSenderUserMessages (c : RetainedContext) (metadata : ItemMetadata) :
    Delivered c (c.recordSenderUserMessages metadata) := by
  rw [recordSenderUserMessages]
  split
  · exact .refl c
  · split_ifs
    · exact .refl c
    · exact ⟨rfl, le_max_left _ _, fun h => max_le h (succOrder_le _)⟩

theorem delivered_foldl (surviving : List ItemMetadata) (c : RetainedContext) :
    Delivered c (surviving.foldl recordSenderUserMessages c) := by
  induction surviving generalizing c with
  | nil => exact .refl c
  | cons metadata surviving ih =>
    exact (delivered_recordSenderUserMessages c metadata).trans (ih _)

/-- The deliveries of surviving items are recorded behind those that fit. -/
theorem familyOk_foldl_iff (surviving : List ItemMetadata) (c : RetainedContext)
    {items : List (Ordered SenderUserMessages)}
    (hitems : c.senderDeliveries = (boundFamily SenderUserMessages.fields items false).1)
    (hpast : ∀ e ∈ items, succOrder e.order ≤ c.nextOrder) {nextOrder : ℕ}
    (hle : (surviving.foldl recordSenderUserMessages c).nextOrder ≤ nextOrder)
    (hcounter : nextOrder ≤ u64Max) :
    FamilyOk SenderUserMessages.fields SameDelivery nextOrder
        (surviving.foldl recordSenderUserMessages c).senderDeliveries ↔
      CleanDeliveries items c.nextOrder surviving := by
  induction surviving generalizing c items with
  | nil =>
    rw [foldl_nil, hitems, CleanDeliveries]
    exact familyOk_boundFamily_iff hcounter (fun e he _ => (hpast e he).trans hle) false
  | cons metadata surviving ih =>
    rw [foldl_cons] at hle ⊢
    rw [CleanDeliveries]
    rw [recordSenderUserMessages] at hle ⊢
    cases hsome : metadata.senderUserMessages with
    | none =>
      simp only [hsome] at hle ⊢
      exact ih c hitems hpast hle
    | some messages =>
      simp only [hsome, hitems] at hle ⊢
      split_ifs at hle ⊢ with hknown
      · exact ih c hitems hpast hle
      · refine ih _ ?_ (forall_mem_append.2 ⟨fun e he => ?_, ?_⟩) hle
        · rw [← hitems]
          rfl
        · exact (hpast e (mem_of_mem_boundFamily he)).trans (le_max_left _ _)
        · exact forall_mem_singleton.2 (le_max_right _ _)

/-- The counter of cut records is past them. -/
structure Cut (c : RetainedContext) (deliveries : List (Ordered SenderUserMessages)) : Prop where
  answers : ∀ e ∈ c.verifiedAnswers, succOrder e.order ≤ c.nextOrder
  users : ∀ e ∈ c.userMessages, e.inherited = false → succOrder e.order ≤ c.nextOrder
  assistants : ∀ e ∈ c.assistantMessages, e.inherited = false → succOrder e.order ≤ c.nextOrder
  senders : ∀ e ∈ deliveries, succOrder e.order ≤ c.nextOrder

/-- The records of a checkpoint lie below the counter that they raise. -/
theorem cut_cutRecords (checkpoint : Option RetainedContext) :
    Cut (cutRecords checkpoint) (cutDeliveries checkpoint) := by
  rw [cutRecords]
  set c := checkpoint.getD { userMessagesIncomplete := true } with hc
  set answers := c.verifiedAnswers.map fun e => { e with value := e.value.bound } with hanswers
  set users := c.userMessages.map fun e => { e with value := e.value.bound } with husers
  set assistants := c.assistantMessages.map fun e => { e with value := e.value.bound }
  have hpast := (foldl_max_succOrder (answers.map (·.order) ++
    ((users ++ assistants).filter (!·.inherited)).map (·.order) ++
    (cutDeliveries checkpoint).map (·.order)) c.nextOrder).2.1
  have hlocal : ∀ e ∈ users ++ assistants, e.inherited = false →
      e.order ∈ ((users ++ assistants).filter (!·.inherited)).map (·.order) := by
    intro e he hlocal
    exact mem_map_of_mem (mem_filter.2 ⟨he, by rw [hlocal]; rfl⟩)
  refine ⟨fun e he => ?_, fun e he hinherited => ?_, fun e he hinherited => ?_, fun e he => ?_⟩
  · exact hpast _ (mem_append_left _ (mem_append_left _ (mem_map_of_mem he)))
  · exact hpast _ (mem_append_left _ (mem_append_right _
      (hlocal e (mem_append_left _ he) hinherited)))
  · exact hpast _ (mem_append_left _ (mem_append_right _
      (hlocal e (mem_append_right _ he) hinherited)))
  · exact hpast _ (mem_append_right _ (mem_map_of_mem he))

theorem cutRecords_counter {checkpoint : Option RetainedContext}
    (hcounter : ∀ c ∈ checkpoint, c.nextOrder ≤ u64Max) :
    (cutRecords checkpoint).nextOrder ≤ u64Max := by
  refine (foldl_max_succOrder _ _).2.2 ?_
  cases checkpoint with
  | none => exact Nat.zero_le _
  | some c => exact hcounter c rfl

/-- **Restoring.**  A restored context keeps the invariant exactly if its checkpoint and the surviving
items can be restored. -/
theorem kept_restore_iff {checkpoint : Option RetainedContext}
    (hcounter : ∀ c ∈ checkpoint, c.nextOrder ≤ u64Max) (surviving : List ItemMetadata) :
    Kept (restore checkpoint surviving) ↔ SoundRestore checkpoint surviving := by
  have hcut := cut_cutRecords checkpoint
  have hdelivered := delivered_foldl surviving (cutRecords checkpoint)
  have hlocal := foldl_max_succOrder
    ((surviving.filter fun (m : ItemMetadata) => !m.inheritedUserMessage).filterMap
      (·.userInputOrder)) (surviving.foldl recordSenderUserMessages (cutRecords checkpoint)).nextOrder
  have hrange := hlocal.2.2 (hdelivered.counter (cutRecords_counter hcounter))
  have hle := hdelivered.le.trans hlocal.1
  have hfields := hdelivered.fields
  have hanswers : FamilyOk VerifiedAnswer.fields SameCall (restore checkpoint surviving).nextOrder
      (restore checkpoint surviving).verifiedAnswers ↔
        CleanIn VerifiedAnswer.fields SameCall (cutRecords checkpoint).verifiedAnswers := by
    have heq := congrArg (fun c => (boundFamily VerifiedAnswer.fields (verifiedAnswers c) false).1)
      hfields
    rw [show (restore checkpoint surviving).verifiedAnswers = _ from heq]
    exact familyOk_boundFamily_iff hrange (fun e he _ => (hcut.answers e he).trans hle) false
  have husers : FamilyOk fields SameMessage (restore checkpoint surviving).nextOrder
      (restore checkpoint surviving).userMessages ↔
        CleanIn fields SameMessage (cutRecords checkpoint).userMessages := by
    have heq := congrArg (fun c => (boundFamily fields (userMessages c) false).1) hfields
    rw [show (restore checkpoint surviving).userMessages = _ from heq]
    exact familyOk_boundFamily_iff hrange (fun e he hl => (hcut.users e he hl).trans hle) false
  have hassistants : FamilyOk fields SameMessage (restore checkpoint surviving).nextOrder
      (restore checkpoint surviving).assistantMessages ↔
        CleanIn fields SameMessage (cutRecords checkpoint).assistantMessages := by
    have heq := congrArg (fun c => (boundFamily fields (assistantMessages c) false).1) hfields
    rw [show (restore checkpoint surviving).assistantMessages = _ from heq]
    exact familyOk_boundFamily_iff hrange (fun e he hl => (hcut.assistants e he hl).trans hle) false
  have hsenders := familyOk_foldl_iff surviving (cutRecords checkpoint) rfl hcut.senders hlocal.1 hrange
  constructor
  · intro hkept
    exact ⟨hanswers.1 hkept.answers, husers.1 hkept.users, hassistants.1 hkept.assistants,
      hsenders.1 hkept.senders⟩
  · intro hsound
    exact ⟨hanswers.2 hsound.answers, husers.2 hsound.users, hassistants.2 hsound.assistants,
      hsenders.2 hsound.senders, hrange⟩

/-- A delivery of a surviving item that keeps the deliveries clean: its id is not cut, so that a second
delivery of its message is known. -/
structure Plain (metadata : ItemMetadata) (messages : SenderUserMessages) : Prop where
  id_le : utf8Len messages.receiverMessageId ≤ 128
  record_le : jsonObject messages.bound.fields ≤ maxRecordBytes
  order_lt : ∃ order ∈ metadata.userInputOrder, order < u64Max

/-- Plain deliveries can be added to clean ones in any number. -/
theorem cleanDeliveries_of_plain {surviving : List ItemMetadata}
    (hplain : ∀ metadata ∈ surviving, ∀ messages ∈ metadata.senderUserMessages,
      Plain metadata messages) {items : List (Ordered SenderUserMessages)}
    (h : Clean SenderUserMessages.fields SameDelivery items) (nextOrder : ℕ) :
    CleanDeliveries items nextOrder surviving := by
  induction surviving generalizing items nextOrder with
  | nil => exact h.cleanIn fun _ _ => Eq.symm
  | cons metadata surviving ih =>
    obtain ⟨hfirst, hplain⟩ := forall_mem_cons.1 hplain
    rw [CleanDeliveries]
    cases hsome : metadata.senderUserMessages with
    | none => exact ih hplain h nextOrder
    | some messages =>
      dsimp only
      obtain ⟨hid, hrecord, order, horder, hlt⟩ := hfirst messages hsome
      split_ifs with hknown
      · exact ih hplain h nextOrder
      · have hlatest : Clean SenderUserMessages.fields SameDelivery
            (boundFamily SenderUserMessages.fields items false).1 :=
          h.cleanIn (fun _ _ => Eq.symm) _ (evict_suffix _) (fits_evict _)
        refine ih hplain (hlatest.concat (e := ⟨none, false, _, messages.bound⟩)
          (fun a ha hsame => hknown ?_) hrecord fun _ => ?_) _
        · refine any_eq_true.2 ⟨a, ha, beq_iff_eq.2 (hsame.trans ?_)⟩
          exact floorBytes_of_le hid
        · rw [horder]
          exact hlt

/-- **Checkpoints that keep the invariant.**  Such a checkpoint can be restored, if its deliveries are
cut and those of the surviving items are plain. -/
theorem soundRestore_of_kept (h : Kept c)
    (hcut : ∀ e ∈ c.senderDeliveries, e.value.bound = e.value) {surviving : List ItemMetadata}
    (hplain : ∀ metadata ∈ surviving, ∀ messages ∈ metadata.senderUserMessages,
      Plain metadata messages) : SoundRestore (some c) surviving := by
  have hmap : ∀ {T : Type} {bound : T → T} {items : List (Ordered T)},
      (∀ e ∈ items, bound e.value = e.value) →
        (items.map fun e => { e with value := bound e.value }) = items := by
    intro T bound items hbound
    rw [map_congr_left fun e he => by rw [hbound e he], List.map_id']
  have hanswers : (cutRecords (some c)).verifiedAnswers = c.verifiedAnswers :=
    hmap fun e he => VerifiedAnswer.bound_of_le (h.answers.record_le e he)
  have husers : (cutRecords (some c)).userMessages = c.userMessages :=
    hmap fun e he => bound_of_le (h.users.record_le e he)
  have hassistants : (cutRecords (some c)).assistantMessages = c.assistantMessages :=
    hmap fun e he => bound_of_le (h.assistants.record_le e he)
  have hsenders : cutDeliveries (some c) = c.senderDeliveries := hmap hcut
  refine ⟨?_, ?_, ?_, ?_⟩
  · rw [hanswers]
    exact (h.answers.clean h.counter).cleanIn SameCall.symm
  · rw [husers]
    exact (h.users.clean h.counter).cleanIn SameMessage.symm
  · rw [hassistants]
    exact (h.assistants.clean h.counter).cleanIn SameMessage.symm
  · rw [hsenders]
    exact cleanDeliveries_of_plain hplain (h.senders.clean h.counter) _

/-! ### Runs -/

/-- **One operation.**  An operation keeps the invariant exactly if it is sound. -/
theorem kept_step_iff (h : Kept c) (op : Operation) : Kept (c.operate op) ↔ Sound c op := by
  cases op with
  | recordUserMessage message source revision hsource hrevision =>
    exact kept_recordUserMessage_iff h message hsource hrevision
  | recordAssistantMessage message source revision hsource hrevision =>
    exact kept_recordAssistantMessage_iff h message hsource hrevision
  | recordAnswer answer acceptanceOrder horder =>
    exact kept_recordVerifiedAnswer_iff h answer horder
  | recordDelivered message acceptanceOrder revision horder hrevision =>
    exact kept_recordDelivered_iff h message horder hrevision
  | restore checkpoint surviving hcounter => exact kept_restore_iff hcounter surviving
  | rollback turnIds firstRemovedMessageId source =>
    exact iff_of_true (kept_rollback h turnIds firstRemovedMessageId source) trivial

theorem kept_empty : Kept {} := by
  have hempty : ∀ {T : Type} (valueFields : T → List ℕ) (same : T → T → Prop),
      FamilyOk valueFields same 0 [] := fun valueFields same =>
    ⟨Nat.zero_le _, Nat.le_of_ble_eq_true rfl, fun _ he => absurd he not_mem_nil, .nil, .nil,
      nofun⟩
  exact ⟨hempty _ _, hempty _ _, hempty _ _, hempty _ _, Nat.zero_le _⟩

/-- The context after some operations on an empty one. -/
def RetainedContext.after (ops : List Operation) : RetainedContext := ops.foldl operate {}

/-- **When the limits are kept.**  Every family of a context is within its limits throughout a run
exactly if every operation of the run is sound in the context that it is made in. -/
theorem kept_throughout_iff (ops : List Operation) :
    (∀ done, done <+: ops → Kept (RetainedContext.after done)) ↔
      ∀ done op, done ++ [op] <+: ops → Sound (RetainedContext.after done) op := by
  have hstep : ∀ c op, Kept c → (Kept (operate c op) ↔ Sound c op) :=
    fun _ op h => kept_step_iff h op
  exact Runs.throughout_iff hstep kept_empty ops

/-- A message with the id `m`. -/
def messageM (text : Text) : Message where
  turnId := ['t']
  messageId := some ['m']
  text := text
  complete := true

/-- A context with a message that was accepted with the last order. -/
def acceptedLast : RetainedContext :=
  RetainedContext.after
    [.recordUserMessage (messageM ['x']) (.acceptedAt (some u64Max)) ['r']
      (fun _ horder => (some.inj horder).symm.le) (by decide)]

/-- A context restored from two messages with one id. -/
def restoredTwice : RetainedContext :=
  RetainedContext.after
    [.restore (some { userMessages := [{ order := 0, value := messageM ['x'] },
      { order := 1, value := messageM ['y'] }] }) [] (fun _ hc => some.inj hc ▸ Nat.zero_le _)]

/-- The counter is not past a record with the last order, and records with one id are restored
both. -/
theorem last_order_and_restored_duplicates :
    (acceptedLast.userMessages.map (fun e => (e.inherited, e.order)) =
      [(false, acceptedLast.nextOrder)] ∧ ¬ Kept acceptedLast) ∧
    restoredTwice.userMessages.map (·.value.messageId) = [some ['m'], some ['m']] ∧
      ¬ Kept restoredTwice := by
  refine ⟨⟨by decide, fun h => ?_⟩, by decide, fun h => ?_⟩
  · have horder := h.users.order_lt
    revert horder
    decide
  · have hvalue : restoredTwice.userMessages =
        [{ order := 0, value := messageM ['x'] }, { order := 1, value := messageM ['y'] }] := by
      decide
    have hdistinct := h.users.distinct
    rw [hvalue] at hdistinct
    exact (pairwise_cons.1 hdistinct).1 _ (mem_singleton_self _) ⟨['m'], rfl, rfl⟩

end Retained
