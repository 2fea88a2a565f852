/-
# What a retained context says about its losses

A retained context may lose records: a long one is clipped, old ones are evicted, a
checkpoint may be missing, turns are rolled back.  `user_messages_complete` and
`verified_answers_complete` are meant to be false after every loss but a rollback.
-/
import BetterCodex.RetainedContext
import BetterCodex.Runs

namespace Retained

open RustStr JsonSize RetainedContext Runs List VerifiedAnswer

/-! ## Bounds -/

section
variable {T : Type} {valueFields : T → List ℕ}

variable {items : List (Ordered T)}

theorem evict_eq_of_not_lost (h : (evict valueFields items).2 = false) :
    (evict valueFields items).1 = items := by
  cases items with
  | nil => rfl
  | cons e items =>
    rw [evict] at h ⊢
    split_ifs at h ⊢
    rfl

/-- A family that is not marked has lost nothing. -/
theorem mem_boundFamily {incomplete : Bool}
    (h : (boundFamily valueFields items incomplete).2 = false) :
    incomplete = false ∧ ∀ e ∈ items, e ∈ (boundFamily valueFields items incomplete).1 := by
  rw [boundFamily, Bool.or_eq_false_iff] at h
  refine ⟨h.1, fun e he => ?_⟩
  rw [boundFamily, evict_eq_of_not_lost h.2]
  exact (perm_insertionSort _ items).mem_iff.2 he

theorem mem_of_eq_boundFamily {items' : List (Ordered T)} {incomplete incomplete' : Bool}
    (heq : (items', incomplete') = boundFamily valueFields items incomplete)
    (h : incomplete' = false) : incomplete = false ∧ ∀ e ∈ items, e ∈ items' := by
  obtain ⟨rfl, rfl⟩ := Prod.ext_iff.1 heq
  exact mem_boundFamily h

end

theorem Message.bound_bound (m : Message) : m.bound.bound = m.bound := by
  by_cases h : maxRecordBytes < jsonObject m.fields
  · have hclip : m.clip.clip = m.clip := by
      rw [Message.clip, Message.clip]
      cases m.messageId <;> simp [floorBytes_floorBytes]
    have hbound : m.bound = m.clip := if_pos h
    rw [hbound, Message.bound, hclip, ite_self]
  · have hbound : m.bound = m := if_neg h
    rw [hbound, hbound]

theorem VerifiedAnswer.bound_bound (a : VerifiedAnswer) : a.bound.bound = a.bound := by
  by_cases h : maxRecordBytes < jsonObject a.fields
  · have hclip : a.clip.clip = a.clip := by
      rw [clip, clip, floorBytes_floorBytes, floorBytes_floorBytes]
    have hbound : a.bound = a.clip := if_pos h
    rw [hbound, bound, hclip, ite_self]
  · have hbound : a.bound = a := if_neg h
    rw [hbound, hbound]

theorem Message.bound_eq_of_complete {m : Message} (h : m.bound.complete = true) : m.bound = m := by
  rw [Message.bound] at h ⊢
  split_ifs at h ⊢
  · cases h
  · rfl

theorem VerifiedAnswer.bound_eq_of_questions {a : VerifiedAnswer} (h : a.bound.questions ≠ []) :
    a.bound = a := by
  rw [bound] at h ⊢
  split_ifs at h ⊢
  · exact absurd rfl h
  · rfl

/-! ## Runs -/

/-- What was recorded and not rolled back, as it was recorded. -/
structure Facts where
  messages : List (Ordered Message) := []
  answers : List (Ordered VerifiedAnswer) := []

/-- A context with its facts, and the checkpoints that were persisted. -/
structure State where
  context : RetainedContext := {}
  facts : Facts := {}
  checkpoints : List (RetainedContext × Facts) := []

/-- The operations on a context. -/
inductive Op where
  | recordUserMessage (message : Message) (source : InputSource) (revision : Text)
  | recordAssistantMessage (message : Message) (source : InputSource) (revision : Text)
  | record (event : Event) (revision : Text)
  | recordSenderUserMessages (metadata : ItemMetadata)
  | reserveOrder
  /-- The context is persisted in a checkpoint. -/
  | persist
  /-- Restored from a checkpoint, or without one. -/
  | restore (checkpoint : Option ℕ) (surviving : List ItemMetadata)
  | rollback (turnIds : List Text) (firstRemovedMessageId : Option Text) (source : InputSource)

/-- The facts that a rollback leaves: those before the boundary it finds, or else those of
other turns. -/
def Facts.rollback (f : Facts) (boundary : Option Key) (turnIds : List Text)
    (source : InputSource) : Facts :=
  match boundary with
  | some boundary =>
    { messages := f.messages.filter (·.key < boundary)
      answers := f.answers.filter (·.key < boundary) }
  | none =>
    { messages := f.messages.filter fun e =>
        (source != .inherited || e.inherited) && !turnIds.contains e.value.turnId
      answers := f.answers.filter fun e =>
        source != .inherited && !turnIds.contains e.value.turnId }

/-- A new message among the facts. -/
def Facts.addMessage (f : Facts) (c : RetainedContext) (message : Message) (source : InputSource) :
    Facts :=
  { f with messages := f.messages ++
      [{ inherited := source = .inherited, order := (c.newOrder source).1, value := message }] }

/-- A new answer among the facts. -/
def Facts.addAnswer (f : Facts) (c : RetainedContext) (answer : VerifiedAnswer)
    (acceptanceOrder : Option ℕ) : Facts :=
  { f with answers := f.answers ++ [{ order := (c.recordOrder acceptanceOrder).1, value := answer }] }

/-- One operation. -/
def step (s : State) : Op → Option State
  | .recordUserMessage message source revision =>
    some { s with
      context := (s.context.recordUserMessage message source revision).1
      facts := s.facts.addMessage s.context message source }
  | .recordAssistantMessage message source revision =>
    some { s with context := (s.context.recordAssistantMessage message source revision).1 }
  | .record (.verifiedAnswer answer acceptanceOrder) revision =>
    let out := s.context.record revision (.verifiedAnswer answer acceptanceOrder)
    -- the same answer delivered again is no new fact
    some { s with
      context := out.1
      facts := if out.2 then s.facts.addAnswer s.context answer acceptanceOrder else s.facts }
  | .record event revision => some { s with context := (s.context.record revision event).1 }
  | .recordSenderUserMessages metadata =>
    some { s with context := s.context.recordSenderUserMessages metadata }
  | .reserveOrder => some { s with context := s.context.reserveOrder }
  | .persist => some { s with checkpoints := s.checkpoints ++ [(s.context, s.facts)] }
  | .restore (some index) surviving =>
    (s.checkpoints[index]?).map fun checkpoint =>
      { s with context := RetainedContext.restore (some checkpoint.1) surviving
               facts := checkpoint.2 }
  | .restore none surviving => some { s with context := RetainedContext.restore none surviving }
  | .rollback turnIds firstRemovedMessageId source =>
    some { s with
      context := s.context.rollback turnIds firstRemovedMessageId source
      facts := s.facts.rollback (s.context.rollbackBoundary firstRemovedMessageId source) turnIds
        source }

/-- **The condition on the operations.**  A recorded message is not the repetition of a
heartbeat, and no record with its id as it is kept is there; the same for the call of an
answer, unless it is the same answer again; a restore without a checkpoint forgets no
answers; and a rollback by turns does not take an answer for one of another turn because
its turn id was clipped. -/
def Admissible (s : State) : Op → Prop
  | .recordUserMessage message source _ =>
    s.context.repeatedHeartbeat message.bound (source = .inherited) = none ∧
      s.context.userMessages.find? (sameId message.bound) = none
  | .record (.verifiedAnswer answer _) _ =>
    ∀ e ∈ s.context.verifiedAnswers.find? (sameCall answer.bound), e.value = answer.bound
  | .restore none _ => s.facts.answers = []
  | .rollback turnIds firstRemovedMessageId source =>
    s.context.rollbackBoundary firstRemovedMessageId source = none →
      ∀ a ∈ s.facts.answers, a.value.bound.turnId ∈ turnIds → a.value.turnId ∈ turnIds
  | _ => True

instance (s : State) : (op : Op) → Decidable (Admissible s op)
  | .recordUserMessage .. => inferInstanceAs (Decidable (_ ∧ _))
  | .record (.verifiedAnswer ..) _ => inferInstanceAs (Decidable (∀ e ∈ _, _))
  | .restore none _ => inferInstanceAs (Decidable (_ = _))
  | .rollback .. => inferInstanceAs (Decidable (_ → _))
  | .recordAssistantMessage .. | .record (.deliveredAssistantMessage ..) _
  | .recordSenderUserMessages _ | .reserveOrder | .persist | .restore (some _) _ => isTrue trivial

/-! ## The invariant -/

/-- An entry that a fact left behind, clipped at most. -/
def Keeps {T : Type} (bound : T → T) (entries : List (Ordered T)) (fact : Ordered T) : Prop :=
  ∃ e ∈ entries, e.inherited = fact.inherited ∧ e.order = fact.order ∧ e.value = bound fact.value

/-- Without a mark of a loss, every fact is still there. -/
structure Traced (c : RetainedContext) (f : Facts) : Prop where
  messages : c.userMessagesIncomplete = false → ∀ m ∈ f.messages, Keeps Message.bound c.userMessages m
  answers : c.verifiedAnswersIncomplete = false →
    ∀ a ∈ f.answers, Keeps VerifiedAnswer.bound c.verifiedAnswers a

variable {T : Type} {bound : T → T} {entries : List (Ordered T)} {fact : Ordered T}

theorem Keeps.mono {entries' : List (Ordered T)} (h : Keeps bound entries fact)
    (hsub : ∀ e ∈ entries, e ∈ entries') : Keeps bound entries' fact := by
  obtain ⟨e, he, hfact⟩ := h
  exact ⟨e, hsub e he, hfact⟩

/-- The families of the facts are as before. -/
structure SameFamilies (c c' : RetainedContext) : Prop where
  messages : c'.userMessages = c.userMessages
  messagesIncomplete : c'.userMessagesIncomplete = c.userMessagesIncomplete
  answers : c'.verifiedAnswers = c.verifiedAnswers
  answersIncomplete : c'.verifiedAnswersIncomplete = c.verifiedAnswersIncomplete

theorem SameFamilies.refl (c : RetainedContext) : SameFamilies c c := ⟨rfl, rfl, rfl, rfl⟩

variable {c : RetainedContext}

theorem SameFamilies.trans {c' c'' : RetainedContext} (h : SameFamilies c c')
    (h' : SameFamilies c' c'') : SameFamilies c c'' :=
  ⟨h'.messages.trans h.messages, h'.messagesIncomplete.trans h.messagesIncomplete,
    h'.answers.trans h.answers, h'.answersIncomplete.trans h.answersIncomplete⟩

variable {f : Facts}

theorem Traced.of_sameFamilies {c' : RetainedContext} (h : Traced c f) (hsame : SameFamilies c c') :
    Traced c' f := by
  refine ⟨?_, ?_⟩
  · rw [hsame.messagesIncomplete, hsame.messages]
    exact h.messages
  · rw [hsame.answersIncomplete, hsame.answers]
    exact h.answers

theorem sameFamilies_newOrder (c : RetainedContext) (source : InputSource) :
    SameFamilies c (c.newOrder source).2 := by
  rw [newOrder]
  split_ifs <;> exact ⟨rfl, rfl, rfl, rfl⟩

theorem sameFamilies_recordAssistantMessage_push (c : RetainedContext) (source : InputSource)
    (revision : Text) (message : Message) (isEmpty : Bool) :
    SameFamilies c (recordAssistantMessage.push source revision c message isEmpty).1 := by
  have horder := sameFamilies_newOrder c source
  rw [recordAssistantMessage.push]
  split_ifs
  · exact horder
  · exact ⟨horder.1, horder.2, horder.3, horder.4⟩

theorem sameFamilies_recordAssistantMessage (c : RetainedContext) (message : Message)
    (source : InputSource) (revision : Text) :
    SameFamilies c (c.recordAssistantMessage message source revision).1 := by
  rw [recordAssistantMessage]
  split_ifs
  · exact .refl c
  · dsimp only
    split
    · split_ifs
      · exact .refl c
      · have herase : SameFamilies c
            { c with assistantMessages := c.assistantMessages.eraseP (sameId message.bound) } :=
          ⟨rfl, rfl, rfl, rfl⟩
        exact herase.trans (sameFamilies_recordAssistantMessage_push _ source revision _ _)
    · exact sameFamilies_recordAssistantMessage_push c source revision _ _

theorem sameFamilies_recordSenderUserMessages (c : RetainedContext) (metadata : ItemMetadata) :
    SameFamilies c (c.recordSenderUserMessages metadata) := by
  rw [recordSenderUserMessages]
  split
  · exact .refl c
  · split_ifs
    · exact .refl c
    · exact ⟨rfl, rfl, rfl, rfl⟩

theorem sameFamilies_record_delivered (c : RetainedContext) (message : Message) (order : ℕ)
    (revision : Text) :
    SameFamilies c (c.record revision (.deliveredAssistantMessage message order)).1 := by
  rw [record]
  split_ifs
  · exact .refl c
  · exact sameFamilies_recordAssistantMessage c _ _ revision

theorem sameFamilies_foldl_recordSenderUserMessages (surviving : List ItemMetadata)
    (c : RetainedContext) : SameFamilies c (surviving.foldl recordSenderUserMessages c) := by
  induction surviving generalizing c with
  | nil => exact .refl c
  | cons metadata surviving ih =>
    exact (sameFamilies_recordSenderUserMessages c metadata).trans (ih _)

/-! ## The operations keep the invariant -/

variable {message : Message}

theorem recordUserMessage_eq {source : InputSource}
    (hrepeated : c.repeatedHeartbeat message.bound (source = .inherited) = none)
    (hfind : c.userMessages.find? (sameId message.bound) = none) (revision : Text) :
    c.recordUserMessage message source revision =
      { c with verifiedAnswersIncomplete :=
          c.verifiedAnswersIncomplete || decide (source = InputSource.inherited) }.pushUserMessage
        message.bound source revision := by
  rw [recordUserMessage]
  simp only [hrepeated, hfind]

theorem pushUserMessage_userMessages (c : RetainedContext) (message : Message)
    (source : InputSource) (revision : Text) :
    ((c.pushUserMessage message source revision).1.userMessages,
        (c.pushUserMessage message source revision).1.userMessagesIncomplete) =
      boundFamily Message.fields
        (c.userMessages ++ [{
          revision := message.messageId.map fun _ => revision
          inherited := source = .inherited
          order := (c.newOrder source).1
          value := message }])
        c.userMessagesIncomplete := by
  have hsame := sameFamilies_newOrder c source
  show boundFamily Message.fields ((c.newOrder source).2.userMessages ++ _)
    (c.newOrder source).2.userMessagesIncomplete = _
  rw [hsame.messages, hsame.messagesIncomplete]
  rfl

theorem newOrder_verifiedAnswersIncomplete (c : RetainedContext) (b : Bool) (source : InputSource) :
    ({ c with verifiedAnswersIncomplete := b }.newOrder source).1 = (c.newOrder source).1 := by
  rw [newOrder, newOrder]
  split_ifs <;> rfl

/-- A user message with a new id keeps the invariant. -/
theorem traced_recordUserMessage {source : InputSource} (h : Traced c f)
    (hrepeated : c.repeatedHeartbeat message.bound (source = .inherited) = none)
    (hfind : c.userMessages.find? (sameId message.bound) = none) (revision : Text) :
    Traced (c.recordUserMessage message source revision).1 (f.addMessage c message source) := by
  rw [recordUserMessage_eq hrepeated hfind]
  set d : RetainedContext := { c with verifiedAnswersIncomplete :=
    c.verifiedAnswersIncomplete || decide (source = InputSource.inherited) } with hd
  constructor
  · -- nothing was lost, so the old entries and the new one are all there
    intro hflag m hm
    obtain ⟨hflag, hmem⟩ := mem_of_eq_boundFamily
      (pushUserMessage_userMessages d message.bound source revision) hflag
    rcases mem_append.1 hm with hm | hm
    · exact (h.messages hflag m hm).mono fun e he => hmem e (mem_append_left _ he)
    · obtain rfl := mem_singleton.1 hm
      refine ⟨_, hmem _ (mem_append_right _ (mem_singleton.2 rfl)), rfl, ?_, rfl⟩
      exact newOrder_verifiedAnswersIncomplete c _ source
  · intro hflag a ha
    have hsame := sameFamilies_newOrder d source
    have hflag' : (d.newOrder source).2.verifiedAnswersIncomplete = false := hflag
    rw [hsame.answersIncomplete, hd, Bool.or_eq_false_iff] at hflag'
    have hkeeps := h.answers hflag'.1 a ha
    show Keeps bound (d.newOrder source).2.verifiedAnswers a
    rw [hsame.answers]
    exact hkeeps

theorem traced_pushVerifiedAnswer (h : Traced c f) (answer : VerifiedAnswer)
    (acceptanceOrder : Option ℕ) :
    Traced (c.pushVerifiedAnswer answer.bound acceptanceOrder)
      (f.addAnswer c answer acceptanceOrder) := by
  refine ⟨h.messages, fun hflag a ha => ?_⟩
  obtain ⟨hflag, hmem⟩ := mem_boundFamily hflag
  rcases mem_append.1 ha with ha | ha
  · exact (h.answers hflag a ha).mono fun e he => hmem e (mem_append_left _ he)
  · obtain rfl := mem_singleton.1 ha
    exact ⟨_, hmem _ (mem_append_right _ (mem_singleton.2 rfl)), rfl, rfl, rfl⟩

/-- An answer to a new call keeps the invariant. -/
theorem traced_recordVerifiedAnswer {answer : VerifiedAnswer} (h : Traced c f)
    (hfind : ∀ e ∈ c.verifiedAnswers.find? (sameCall answer.bound), e.value = answer.bound)
    (acceptanceOrder : Option ℕ) :
    Traced (c.recordVerifiedAnswer answer acceptanceOrder).1
      (if (c.recordVerifiedAnswer answer acceptanceOrder).2 then
        f.addAnswer c answer acceptanceOrder else f) := by
  cases hfound : c.verifiedAnswers.find? (sameCall answer.bound) with
  | none =>
    have hnew : c.recordVerifiedAnswer answer acceptanceOrder =
        (c.pushVerifiedAnswer answer.bound acceptanceOrder, true) := by
      rw [recordVerifiedAnswer]
      simp only [hfound]
    rw [hnew]
    exact traced_pushVerifiedAnswer h answer acceptanceOrder
  | some e =>
    have hold : c.recordVerifiedAnswer answer acceptanceOrder = (c, false) := by
      rw [recordVerifiedAnswer]
      simp only [hfound, hfind e hfound, if_true]
    rw [hold]
    exact h

/-- A family that is bounded again still has what it had. -/
theorem Keeps.map_bound (hbound : ∀ v, bound (bound v) = bound v) (h : Keeps bound entries fact) :
    Keeps bound (entries.map fun e => { e with value := bound e.value }) fact := by
  obtain ⟨e, he, hinherited, horder, hvalue⟩ := h
  refine ⟨_, mem_map_of_mem he, hinherited, horder, ?_⟩
  rw [hvalue, hbound]

theorem restore_userMessages (checkpoint : Option RetainedContext) (surviving : List ItemMetadata) :
    ((restore checkpoint surviving).userMessages,
        (restore checkpoint surviving).userMessagesIncomplete) =
      boundFamily Message.fields
        ((checkpoint.getD { userMessagesIncomplete := true }).userMessages.map
          fun e => { e with value := e.value.bound })
        (checkpoint.getD { userMessagesIncomplete := true }).userMessagesIncomplete := by
  rw [restore]
  rw [(sameFamilies_foldl_recordSenderUserMessages surviving _).messages,
    (sameFamilies_foldl_recordSenderUserMessages surviving _).messagesIncomplete]
  rfl

theorem restore_verifiedAnswers (checkpoint : RetainedContext) (surviving : List ItemMetadata) :
    ∃ inherited, ((restore (some checkpoint) surviving).verifiedAnswers,
        (restore (some checkpoint) surviving).verifiedAnswersIncomplete) =
      boundFamily fields
        (checkpoint.verifiedAnswers.map fun e => { e with value := e.value.bound })
        (checkpoint.verifiedAnswersIncomplete || inherited) := by
  rw [restore]
  rw [(sameFamilies_foldl_recordSenderUserMessages surviving _).answers,
    (sameFamilies_foldl_recordSenderUserMessages surviving _).answersIncomplete]
  exact ⟨_, rfl⟩

/-- A restored checkpoint keeps the invariant. -/
theorem traced_restore (h : Traced c f) (surviving : List ItemMetadata) :
    Traced (restore (some c) surviving) f := by
  constructor
  · intro hflag m hm
    obtain ⟨hflag, hmem⟩ := mem_of_eq_boundFamily (restore_userMessages (some c) surviving) hflag
    exact ((h.messages hflag m hm).map_bound Message.bound_bound).mono hmem
  · intro hflag a ha
    obtain ⟨inherited, heq⟩ := restore_verifiedAnswers c surviving
    obtain ⟨hflag, hmem⟩ := mem_of_eq_boundFamily heq hflag
    rw [Bool.or_eq_false_iff] at hflag
    exact ((h.answers hflag.1 a ha).map_bound bound_bound).mono hmem

/-- Without a checkpoint the messages are marked. -/
theorem traced_restore_none (h : f.answers = []) (surviving : List ItemMetadata) :
    Traced (restore none surviving) f := by
  constructor
  · intro hflag
    cases (mem_of_eq_boundFamily (restore_userMessages none surviving) hflag).1
  · intro _ a ha
    rw [h] at ha
    cases ha

theorem Keeps.filter_key (h : Keeps bound entries fact) {boundary : Key}
    (hkey : fact.key < boundary) : Keeps bound (entries.filter (·.key < boundary)) fact := by
  obtain ⟨e, he, hinherited, horder, hvalue⟩ := h
  refine ⟨e, mem_filter.2 ⟨he, ?_⟩, hinherited, horder, hvalue⟩
  rw [Ordered.key, ← hinherited, ← horder] at hkey
  exact decide_eq_true hkey

/-- A rollback takes records and facts back alike. -/
theorem traced_rollback (h : Traced c f) (turnIds : List Text) (firstRemovedMessageId : Option Text)
    (source : InputSource) (hturns : c.rollbackBoundary firstRemovedMessageId source = none →
      ∀ a ∈ f.answers, a.value.bound.turnId ∈ turnIds → a.value.turnId ∈ turnIds) :
    Traced (c.rollback turnIds firstRemovedMessageId source)
      (f.rollback (c.rollbackBoundary firstRemovedMessageId source) turnIds source) := by
  rw [rollback]
  cases hboundary : c.rollbackBoundary firstRemovedMessageId source with
  | some boundary =>
    constructor
    · intro hflag m hm
      obtain ⟨hm, hkey⟩ := mem_filter.1 hm
      exact (h.messages hflag m hm).filter_key (of_decide_eq_true hkey)
    · intro hflag a ha
      obtain ⟨ha, hkey⟩ := mem_filter.1 ha
      exact (h.answers hflag a ha).filter_key (of_decide_eq_true hkey)
  | none =>
    constructor
    · -- a message of these turns would have left a mark
      intro hflag m hm
      obtain ⟨hm, hkept⟩ := mem_filter.1 hm
      rw [Bool.or_eq_false_iff, Bool.or_eq_false_iff, any_eq_false] at hflag
      obtain ⟨⟨hflag, -⟩, hnone⟩ := hflag
      obtain ⟨e, he, hinherited, horder, hvalue⟩ := h.messages hflag m hm
      refine ⟨e, mem_filter.2 ⟨he, ?_⟩, hinherited, horder, hvalue⟩
      rw [hinherited, Bool.eq_false_of_not_eq_true (hnone e he)]
      rw [Bool.and_eq_true] at hkept ⊢
      exact ⟨hkept.1, rfl⟩
    · intro hflag a ha
      obtain ⟨ha, hkept⟩ := mem_filter.1 ha
      obtain ⟨e, he, hinherited, horder, hvalue⟩ := h.answers hflag a ha
      refine ⟨e, mem_filter.2 ⟨he, ?_⟩, hinherited, horder, hvalue⟩
      rw [Bool.and_eq_true, Bool.not_eq_true', contains_eq_mem, decide_eq_false_iff_not]
        at hkept ⊢
      refine ⟨hkept.1, fun hturn => hkept.2 (hturns hboundary a ha ?_)⟩
      rwa [← hvalue]

/-! ## Whole runs -/

/-- The context and every checkpoint trace their facts. -/
structure State.Sound (s : State) : Prop where
  context : Traced s.context s.facts
  checkpoints : ∀ checkpoint ∈ s.checkpoints, Traced checkpoint.1 checkpoint.2

theorem State.sound_init : State.Sound {} where
  context := ⟨fun _ _ h => absurd h not_mem_nil, fun _ _ h => absurd h not_mem_nil⟩
  checkpoints _ h := absurd h not_mem_nil

/-- Every admissible operation keeps the context sound. -/
theorem sound_step {s s' : State} {op : Op} (h : s.Sound) (hok : Admissible s op)
    (hstep : step s op = some s') : s'.Sound := by
  cases op with
  | recordUserMessage message source revision =>
    obtain rfl := Option.some.inj hstep
    exact ⟨traced_recordUserMessage h.context hok.1 hok.2 revision, h.checkpoints⟩
  | recordAssistantMessage message source revision =>
    obtain rfl := Option.some.inj hstep
    exact ⟨h.context.of_sameFamilies (sameFamilies_recordAssistantMessage ..), h.checkpoints⟩
  | record event revision =>
    cases event with
    | verifiedAnswer answer acceptanceOrder =>
      obtain rfl := Option.some.inj hstep
      exact ⟨traced_recordVerifiedAnswer h.context hok acceptanceOrder, h.checkpoints⟩
    | deliveredAssistantMessage message acceptanceOrder =>
      obtain rfl := Option.some.inj hstep
      exact ⟨h.context.of_sameFamilies (sameFamilies_record_delivered ..), h.checkpoints⟩
  | recordSenderUserMessages metadata =>
    obtain rfl := Option.some.inj hstep
    exact ⟨h.context.of_sameFamilies (sameFamilies_recordSenderUserMessages ..), h.checkpoints⟩
  | reserveOrder =>
    obtain rfl := Option.some.inj hstep
    exact ⟨h.context.of_sameFamilies ⟨rfl, rfl, rfl, rfl⟩, h.checkpoints⟩
  | persist =>
    obtain rfl := Option.some.inj hstep
    refine ⟨h.context, fun checkpoint hmem => ?_⟩
    rcases mem_append.1 hmem with hmem | hmem
    · exact h.checkpoints checkpoint hmem
    · obtain rfl := mem_singleton.1 hmem
      exact h.context
  | restore checkpoint surviving =>
    cases checkpoint with
    | none =>
      obtain rfl := Option.some.inj hstep
      exact ⟨traced_restore_none hok surviving, h.checkpoints⟩
    | some index =>
      obtain ⟨checkpoint, hget, rfl⟩ := Option.map_eq_some_iff.1 hstep
      exact ⟨traced_restore (h.checkpoints checkpoint (mem_of_getElem? hget)) surviving,
        h.checkpoints⟩
  | rollback turnIds firstRemovedMessageId source =>
    obtain rfl := Option.some.inj hstep
    exact ⟨traced_rollback h.context turnIds firstRemovedMessageId source hok, h.checkpoints⟩

/-- What the completeness of a context promises: every fact is there as it was recorded. -/
structure State.Complete (s : State) : Prop where
  messages : s.context.userMessagesComplete = true →
    ∀ m ∈ s.facts.messages, m.value ∈ s.context.userMessages.map (·.value)
  answers : s.context.verifiedAnswersComplete = true →
    ∀ a ∈ s.facts.answers, a.value ∈ s.context.verifiedAnswers.map (·.value)

/-- A sound context that calls itself complete has every fact. -/
theorem State.Sound.complete {s : State} (h : s.Sound) : s.Complete := by
  constructor
  · intro hcomplete m hm
    rw [userMessagesComplete, Bool.and_eq_true, Bool.not_eq_true', all_eq_true] at hcomplete
    obtain ⟨e, he, -, -, hvalue⟩ := h.context.messages hcomplete.1 m hm
    have hwhole := hcomplete.2 e he
    rw [hvalue] at hwhole
    exact mem_map.2 ⟨e, he, hvalue.trans (Message.bound_eq_of_complete hwhole)⟩
  · intro hcomplete a ha
    rw [verifiedAnswersComplete, Bool.and_eq_true, Bool.not_eq_true', all_eq_true] at hcomplete
    obtain ⟨e, he, -, -, hvalue⟩ := h.context.answers hcomplete.1 a ha
    have hwhole := hcomplete.2 e he
    rw [hvalue, Bool.not_eq_true', isEmpty_eq_false_iff] at hwhole
    exact mem_map.2 ⟨e, he, hvalue.trans (bound_eq_of_questions hwhole)⟩

/-- **No hidden loss.**  In every run of admissible operations, a context that calls its
user messages complete holds every message that was recorded and not rolled back, with
its whole text; and so for verified answers. -/
theorem retained_facts_complete (ops : List Op) (last : State)
    (hok : Along step Admissible {} ops) (hrun : run step {} ops = some last) : last.Complete :=
  (hok.invariant (fun _ _ _ => sound_step) State.sound_init hrun).complete

/-- A run with a message, an answer, a checkpoint, a rollback and a restore. -/
def sampleOps : List Op :=
  [.recordUserMessage
      { turnId := ['t'], messageId := some ['m'], text := ['g', 'o'], complete := true }
      (.acceptedAt none) ['r'],
    .record (.verifiedAnswer
      { turnId := ['t'], callId := ['c'], questions := [⟨['q'], ['a']⟩] } none) ['r'],
    .persist, .rollback [['t']] none (.acceptedAt none), .restore (some 0) []]

theorem retained_facts_complete_sample :
    ∃ last, run step {} sampleOps = some last ∧ last.context.userMessagesComplete = true ∧
      last.context.verifiedAnswersComplete = true ∧ last.facts.messages.length = 1 ∧
      last.facts.answers.length = 1 ∧ last.Complete := by
  refine ⟨_, rfl, ?_, ?_, ?_, ?_, retained_facts_complete sampleOps _ ?_ rfl⟩ <;> decide

/-! ## A hidden loss -/

/-- A message that is too long, with an id that is too long. -/
def longMessage : Message where
  turnId := ['t']
  messageId := some (List.replicate 1025 'x')
  text := List.replicate 20000 'y'
  complete := true

/-- A short message; its id is that of the long one after clipping. -/
def shortMessage : Message where
  turnId := ['u']
  messageId := some (List.replicate 1024 'x')
  text := ['z']
  complete := true

theorem jsonObject_message_fields (turnId id text : Text) (complete : Bool) :
    jsonObject (Message.fields { turnId, messageId := some id, text, complete }) =
      jsonString turnId + jsonString id + jsonString text + jsonBool complete + 46 := by
  have hkeys : jsonString "turn_id".toList = 9 ∧ jsonString "message_id".toList = 12 ∧
      jsonString "text".toList = 6 ∧ jsonString "complete".toList = 10 := ⟨rfl, rfl, rfl, rfl⟩
  show 2 + (jsonString "turn_id".toList + 1 + jsonString turnId +
    (jsonString "message_id".toList + 1 + jsonString id +
    (jsonString "text".toList + 1 + jsonString text +
    (jsonString "complete".toList + 1 + jsonBool complete + 0)))) + 3 = _
  omega

open Option

theorem boundFamily_singleton {e : Ordered Message} (hrevision : e.revision = some ['r'])
    (hinherited : e.inherited = false) (horder : jsonNat e.order ≤ 20)
    (hsize : jsonObject e.value.fields ≤ maxRecordBytes) :
    boundFamily Message.fields [e] false = ([e], false) := by
  have hkeys : jsonString "revision".toList = 10 ∧ jsonString "order".toList = 7 ∧
      jsonString ['r'] = 3 := ⟨rfl, rfl, rfl⟩
  have hbytes : ¬maxFamilyBytes < familyBytes Message.fields [e] := by
    simp only [familyBytes, Ordered.fields, hrevision, hinherited, jsonArray, jsonObject, jsonField,
      maxRecordBytes, maxFamilyBytes, map_cons, map_nil, sum_cons, sum_nil,
      length_cons, length_nil, map_some, toList_some, Bool.false_eq_true,
      if_false, append_nil, cons_append, nil_append] at hsize ⊢
    omega
  have hevict : evict Message.fields [e] = ([e], false) := by
    rw [evict, if_neg (not_or.2 ⟨by simp [maxFamilyRecords], hbytes⟩)]
  show ((evict Message.fields [e]).1, false || (evict Message.fields [e]).2) = _
  rw [hevict, Bool.false_or]

/-- A long message loses its text, and a long id its end. -/
theorem longMessage_bound : longMessage.bound =
    { longMessage with text := [], complete := false, messageId := shortMessage.messageId } := by
  have hlong : maxRecordBytes < jsonObject longMessage.fields := by
    have htext : jsonString longMessage.text = 20002 := jsonString_replicate rfl 20000
    have hsize := jsonObject_message_fields longMessage.turnId (List.replicate 1025 'x')
      longMessage.text true
    rw [htext] at hsize
    rw [maxRecordBytes]
    exact Nat.lt_of_lt_of_le (by omega) hsize.ge
  have hid : floorBytes maxIdBytes (List.replicate 1025 'x') = List.replicate 1024 'x' :=
    floorBytes_replicate rfl 1024 1025
  rw [Message.bound, if_pos hlong]
  exact congrArg (fun id => ({ longMessage with
    text := [], complete := false, messageId := some id } : Message)) hid

theorem jsonObject_shortMessage_fields : jsonObject shortMessage.fields = 1082 := by
  have hid : jsonString (List.replicate 1024 'x') = 1026 := jsonString_replicate rfl 1024
  refine (jsonObject_message_fields ['u'] _ ['z'] true).trans ?_
  rw [hid]
  rfl

theorem shortMessage_bound : shortMessage.bound = shortMessage := by
  rw [Message.bound, jsonObject_shortMessage_fields, if_neg (by decide)]

theorem pushUserMessage_first (hid : message.messageId.isSome)
    (hsize : jsonObject message.fields ≤ maxRecordBytes) (order : ℕ) (horder : jsonNat order ≤ 20) :
    ({ nextOrder := order : RetainedContext }.pushUserMessage message (.acceptedAt none) ['r']).1 =
      { userMessages := [{ revision := some ['r'], order, value := message }]
        nextOrder := max order (succOrder order) } := by
  obtain ⟨id, hid⟩ := isSome_iff_exists.1 hid
  have hnew : { nextOrder := order : RetainedContext }.newOrder (.acceptedAt none) =
      (order, { nextOrder := max order (succOrder order) }) := rfl
  have hfamily : boundFamily Message.fields
      ([] ++ [{ revision := some ['r'], inherited := false, order, value := message }]) false =
        ([{ revision := some ['r'], order, value := message }], false) :=
    boundFamily_singleton rfl rfl horder hsize
  have hlocal : decide (InputSource.acceptedAt none = .inherited) = false := rfl
  simp only [pushUserMessage, hnew, hid, map_some, hlocal, hfamily]

/-- A message with a known id replaces the earlier one without a mark. -/
theorem recordUserMessage_replace {old : Message} (hbound : message.bound = message)
    (horigin : message.origin = .user) (hid : message.messageId.isSome)
    (hold : old.messageId = message.messageId) (hne : old ≠ message)
    (hsize : jsonObject message.fields ≤ maxRecordBytes) :
    (recordUserMessage
      { userMessages := [{ revision := some ['r'], order := 0, value := old }], nextOrder := 1 }
      message (.acceptedAt none) ['r']).1 =
    { userMessages := [{ revision := some ['r'], order := 1, value := message }]
      nextOrder := 2 } := by
  have hsame : sameId message { revision := some ['r'], order := 0, value := old } = true := by
    rw [sameId, hid, hold, beq_self_eq_true, Bool.and_self]
  have hlocal : decide (InputSource.acceptedAt none = .inherited) = false := rfl
  have horigin : ¬(message.complete = true ∧ message.origin = .heartbeat) := by
    rw [horigin]
    exact fun h => nomatch h.2
  rw [recordUserMessage]
  simp only [hbound, hlocal, repeatedHeartbeat, horigin, if_false, find?_cons_of_pos hsame, hne,
    false_and, eraseP_cons_of_pos hsame, Bool.or_false]
  exact pushUserMessage_first hid hsize 1 (by decide)

theorem run_two_messages (m₁ m₂ : Message) :
    ∃ last, run step {} [.recordUserMessage m₁ (.acceptedAt none) ['r'],
        .recordUserMessage m₂ (.acceptedAt none) ['r']] = some last ∧
      last.context = ((recordUserMessage {} m₁ (.acceptedAt none) ['r']).1.recordUserMessage m₂
        (.acceptedAt none) ['r']).1 ∧
      m₁ ∈ last.facts.messages.map (·.value) :=
  ⟨_, rfl, rfl, mem_cons_self⟩

/-- **A hidden loss.**  The text of the long message is lost when it is recorded, which
its entry says; the short message has another id, but takes the entry's place, and the
context calls its messages complete. -/
theorem clipped_id_hides_loss :
    longMessage.messageId ≠ shortMessage.messageId ∧
    ∃ last, run step {}
        [.recordUserMessage longMessage (.acceptedAt none) ['r'],
          .recordUserMessage shortMessage (.acceptedAt none) ['r']] = some last ∧
      last.context.userMessagesComplete = true ∧
      longMessage ∈ last.facts.messages.map (·.value) ∧
      longMessage ∉ last.context.userMessages.map (·.value) := by
  have hids : longMessage.messageId ≠ shortMessage.messageId := by
    intro h
    have hlength := congrArg List.length (Option.some.inj h)
    rw [length_replicate, length_replicate] at hlength
    omega
  have hclipped : jsonObject longMessage.bound.fields ≤ maxRecordBytes := by
    rw [longMessage_bound]
    refine (jsonObject_message_fields ['t'] _ [] false).trans_le ?_
    rw [jsonString_replicate rfl]
    decide
  have hfirst : (recordUserMessage {} longMessage (.acceptedAt none) ['r']).1 =
      { userMessages := [{ revision := some ['r'], order := 0, value := longMessage.bound }]
        nextOrder := 1 } := by
    rw [recordUserMessage_eq (by rw [longMessage_bound]; rfl) rfl]
    exact pushUserMessage_first (by rw [longMessage_bound]; rfl) hclipped 0 (by decide)
  have hold : longMessage.bound.messageId = shortMessage.messageId := by rw [longMessage_bound]
  have hne : longMessage.bound ≠ shortMessage := by
    rw [longMessage_bound]
    exact fun h => nomatch congrArg Message.text h
  obtain ⟨last, hrun, hcontext, hfacts⟩ := run_two_messages longMessage shortMessage
  rw [hfirst, recordUserMessage_replace shortMessage_bound rfl rfl hold hne
    (by rw [jsonObject_shortMessage_fields]; decide)] at hcontext
  refine ⟨hids, last, hrun, ?_, hfacts, ?_⟩
  · rw [hcontext]
    rfl
  · rw [hcontext]
    intro h
    exact hids (congrArg Message.messageId (mem_singleton.1 h))

end Retained
