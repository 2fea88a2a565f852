/-
# Retained context

Facts that a thread keeps outside the model's history: user messages, assistant
messages, verified answers and what senders of tasks said.  Each family is bounded; a
record that is too long loses its text, and the oldest records go first.
-/
import BetterCodex.JsonSize

namespace Retained

open RustStr JsonSize

/-! ## Families -/

def maxFamilyRecords : ℕ := 8
def maxRecordBytes : ℕ := 16384
def maxFamilyBytes : ℕ := 65536
def maxIdBytes : ℕ := 1024

structure Ordered (T : Type) where
  revision : Option Text := none
  inherited : Bool := false
  order : ℕ
  value : T
  deriving DecidableEq, Repr

/-- `RetainedContextOrder`: inherited entries come before local ones. -/
abbrev Key : Type := ℕ ×ₗ ℕ

variable {T : Type}

/-- `RetainedContextOrder::Local`. -/
def localKey (order : ℕ) : Key := toLex (1, order)

def Ordered.key (e : Ordered T) : Key := toLex (if e.inherited then 0 else 1, e.order)

/-- `sort_by_key`, a stable sort. -/
def sortByKey (items : List (Ordered T)) : List (Ordered T) :=
  items.insertionSort fun a b => a.key ≤ b.key

/-- The sizes of the fields of an entry; the fields of its value stand beside its own. -/
def Ordered.fields (valueFields : T → List ℕ) (e : Ordered T) : List ℕ :=
  (e.revision.map fun id => jsonField "revision".toList (jsonString id)).toList ++
    (if e.inherited then [jsonField "inherited".toList (jsonBool true)] else []) ++
    jsonField "order".toList (jsonNat e.order) :: valueFields e.value

/-- The size of a family. -/
def familyBytes (valueFields : T → List ℕ) (items : List (Ordered T)) : ℕ :=
  jsonArray (items.map fun e => jsonObject (e.fields valueFields))

/-- The loop of `bound_family`: entries go from the front, and it says if any did. -/
def evict (valueFields : T → List ℕ) : List (Ordered T) → List (Ordered T) × Bool
  | [] => ([], false)
  | e :: items =>
    if maxFamilyRecords < (e :: items).length ∨ maxFamilyBytes < familyBytes valueFields (e :: items)
    then ((evict valueFields items).1, true)
    else (e :: items, false)

def boundFamily (valueFields : T → List ℕ) (items : List (Ordered T)) (incomplete : Bool) :
    List (Ordered T) × Bool :=
  let out := evict valueFields (sortByKey items)
  (out.1, incomplete || out.2)

/-! ## Records -/

inductive UserInputOrigin where
  | user
  | heartbeat
  deriving DecidableEq, Repr

inductive MessagePhase where
  | commentary
  | partialAnswer
  | finalAnswer
  deriving DecidableEq, Repr

/-- The name of a phase. -/
def MessagePhase.name : MessagePhase → Text
  | .commentary => "commentary".toList
  | .partialAnswer => "partial_answer".toList
  | .finalAnswer => "final_answer".toList

/-- `RetainedUserMessage`. -/
structure Message where
  turnId : Text
  messageId : Option Text
  text : Text
  complete : Bool
  origin : UserInputOrigin := .user
  phase : Option MessagePhase := none
  deriving DecidableEq, Repr

/-- `VerifiedQuestionAnswer`. -/
structure QuestionAnswer where
  question : Text
  answer : Text
  deriving DecidableEq, Repr

structure VerifiedAnswer where
  turnId : Text
  callId : Text
  questions : List QuestionAnswer
  deriving DecidableEq, Repr

structure SenderUserMessages where
  receiverTurnId : Text
  receiverMessageId : Text
  text : Text
  deriving DecidableEq, Repr

/-- The sizes of the fields of a message; defaults are not written. -/
def Message.fields (m : Message) : List ℕ :=
  [jsonField "turn_id".toList (jsonString m.turnId),
    jsonField "message_id".toList (jsonOption jsonString m.messageId),
    jsonField "text".toList (jsonString m.text),
    jsonField "complete".toList (jsonBool m.complete)] ++
  (if m.origin = .heartbeat then [jsonField "origin".toList (jsonString "heartbeat".toList)]
    else []) ++
  (m.phase.map fun phase => jsonField "phase".toList (jsonString phase.name)).toList

/-- The sizes of the fields of an answer. -/
def VerifiedAnswer.fields (a : VerifiedAnswer) : List ℕ :=
  [jsonField "turn_id".toList (jsonString a.turnId),
    jsonField "call_id".toList (jsonString a.callId),
    jsonField "questions".toList (jsonArray (a.questions.map fun q =>
      jsonObject [jsonField "question".toList (jsonString q.question),
        jsonField "answer".toList (jsonString q.answer)]))]

/-- The sizes of the fields of a sender's messages. -/
def SenderUserMessages.fields (m : SenderUserMessages) : List ℕ :=
  [jsonField "receiver_turn_id".toList (jsonString m.receiverTurnId),
    jsonField "receiver_message_id".toList (jsonString m.receiverMessageId),
    jsonField "text".toList (jsonString m.text)]

/-- What is left of a message that is too long. -/
def Message.clip (m : Message) : Message :=
  { m with
    text := []
    complete := false
    turnId := floorBytes maxIdBytes m.turnId
    messageId := m.messageId.map (floorBytes maxIdBytes) }

/-- `RetainedUserMessage::bound`. -/
def Message.bound (m : Message) : Message :=
  if maxRecordBytes < jsonObject m.fields then m.clip else m

/-- What is left of an answer that is too long. -/
def VerifiedAnswer.clip (a : VerifiedAnswer) : VerifiedAnswer where
  questions := []
  turnId := floorBytes maxIdBytes a.turnId
  callId := floorBytes maxIdBytes a.callId

/-- `RetainedContextEvent::bound` of an answer. -/
def VerifiedAnswer.bound (a : VerifiedAnswer) : VerifiedAnswer :=
  if maxRecordBytes < jsonObject a.fields then a.clip else a

def SenderUserMessages.bound (m : SenderUserMessages) : SenderUserMessages where
  text := if 3600 < utf8Len m.text then
    ("Host: Sender context exceeds the evidence budget. " ++
      "Do not infer permission from missing evidence.\n").toList else m.text
  receiverTurnId := floorBytes 128 m.receiverTurnId
  receiverMessageId := floorBytes 128 m.receiverMessageId

/-! ## Heartbeats -/

structure Heartbeat where
  automationId : Text
  timestamp : Text
  instructions : Text
  deriving DecidableEq, Repr

def stripSuffix (p s : Text) : Option Text := (stripPrefix p.reverse s.reverse).map List.reverse

def Heartbeat.parse (text : Text) : Option Heartbeat := do
  guard (utf8Len text + (lines text).length * 6 + 64 ≤ 3600)
  let text := (stripSuffix ['\n'] text).getD text
  let text ← stripPrefix "<heartbeat>\n  <automation_id>".toList text
  let (automationId, text) ← splitOnce "</automation_id>\n  <current_time_iso>".toList text
  let (timestamp, text) ← splitOnce "</current_time_iso>\n  <instructions>\n".toList text
  let instructions ← stripSuffix "\n  </instructions>\n</heartbeat>".toList text
  guard (automationId ≠ [] ∧ utf8Len automationId ≤ 128)
  guard (automationId.all fun c => c.isAlphanum || c == '-' || c == '_')
  guard (timestamp ≠ [] ∧ utf8Len timestamp ≤ 64)
  guard (timestamp.all fun c => c.isDigit || "TZ:.+-".toList.contains c)
  return { automationId, timestamp, instructions }

/-! ## The context -/

/-- `RetainedInputSource`. -/
inductive InputSource where
  | acceptedAt (order : Option ℕ)
  | inherited
  deriving DecidableEq, Repr

def InputSource.acceptanceOrder : InputSource → Option ℕ
  | .acceptedAt order => order
  | .inherited => none

/-- `RetainedSourceRole`. -/
inductive SourceRole where
  | user
  | assistant
  deriving DecidableEq, Repr

/-- `RetainedSource` with its `RetainedSourceId`. -/
structure RetainedSource where
  messageId : Text
  turnId : Text
  role : SourceRole
  revision : Text
  complete : Bool
  deriving DecidableEq, Repr

def Ordered.source (e : Ordered Message) (role : SourceRole) : Option RetainedSource := do
  return {
    messageId := ← e.value.messageId
    turnId := e.value.turnId
    role
    revision := ← e.revision
    complete := e.value.complete }

/-- `RetainedContextEvent`. -/
inductive Event where
  | verifiedAnswer (answer : VerifiedAnswer) (acceptanceOrder : Option ℕ)
  | deliveredAssistantMessage (message : Message) (acceptanceOrder : ℕ)

/-- What the context reads of the metadata of an item. -/
structure ItemMetadata where
  inheritedUserMessage : Bool := false
  userInputOrder : Option ℕ := none
  senderUserMessages : Option SenderUserMessages := none

structure RetainedContext where
  verifiedAnswers : List (Ordered VerifiedAnswer) := []
  verifiedAnswersIncomplete : Bool := false
  userMessages : List (Ordered Message) := []
  userMessagesIncomplete : Bool := false
  assistantMessages : List (Ordered Message) := []
  assistantMessagesIncomplete : Bool := false
  nextOrder : ℕ := 0
  senderDeliveries : List (Ordered SenderUserMessages) := []
  deriving DecidableEq, Repr

namespace RetainedContext

/-- `saturating_add(1)` of a `u64`. -/
def succOrder (order : ℕ) : ℕ := min (order + 1) (2 ^ 64 - 1)

variable (c : RetainedContext)

def verifiedAnswersComplete : Bool :=
  !c.verifiedAnswersIncomplete && c.verifiedAnswers.all fun e => !e.value.questions.isEmpty

def userMessagesComplete : Bool :=
  !c.userMessagesIncomplete && c.userMessages.all (·.value.complete)

def reserveOrder : RetainedContext :=
  { c with nextOrder := succOrder c.nextOrder }

/-- `record_order`: the order, with the counter behind it. -/
def recordOrder (acceptanceOrder : Option ℕ) : ℕ × RetainedContext :=
  let order := acceptanceOrder.getD c.nextOrder
  (order, { c with nextOrder := max c.nextOrder (succOrder order) })

def nextInheritedOrder : ℕ :=
  ((c.userMessages ++ c.assistantMessages).filter (·.inherited)).foldl
    (fun next e => max next (succOrder e.order)) 0

/-- The order of a new message. -/
def newOrder (source : InputSource) : ℕ × RetainedContext :=
  if source = .inherited then (c.nextInheritedOrder, c) else c.recordOrder source.acceptanceOrder

/-- The entry that an unchanged invocation of a heartbeat repeats: the latest entry of the
automation, if it has the same instructions. -/
def latestInvocation (current : Heartbeat) : List (Ordered Message) → Option (Ordered Message)
  | [] => none
  | e :: older =>
    match Heartbeat.parse e.value.text with
    | none => none
    | some previous =>
      if previous.automationId = current.automationId then
        if e.value.complete ∧ previous.instructions = current.instructions then some e else none
      else latestInvocation current older

variable (message : Message)

/-- The entry that a message only repeats. -/
def repeatedHeartbeat (inherited : Bool) : Option (Ordered Message) :=
  if message.complete ∧ message.origin = .heartbeat then
    (Heartbeat.parse message.text).bind fun current =>
      latestInvocation current (c.userMessages.reverse.filter fun e =>
        e.inherited == inherited && e.value.origin == .heartbeat)
  else none

/-- Whether an entry has the id of a message. -/
def sameId (e : Ordered Message) : Bool :=
  message.messageId.isSome && e.value.messageId == message.messageId

/-- A new user message at the end of its family. -/
def pushUserMessage (source : InputSource)
    (revision : Text) : RetainedContext × Option RetainedSource :=
  let (order, c) := c.newOrder source
  let entry : Ordered Message :=
    { revision := message.messageId.map fun _ => revision
      inherited := source = .inherited
      order
      value := message }
  let (userMessages, userMessagesIncomplete) :=
    boundFamily Message.fields (c.userMessages ++ [entry]) c.userMessagesIncomplete
  ({ c with userMessages, userMessagesIncomplete }, entry.source .user)

/-- `record_user_message`; a fresh revision is passed in. -/
def recordUserMessage (source : InputSource)
    (revision : Text) : RetainedContext × Option RetainedSource :=
  let message := message.bound
  let inherited : Bool := source = .inherited
  match c.repeatedHeartbeat message inherited with
  | some e =>
    (c, if e.value.messageId = message.messageId ∧ e.value.turnId = message.turnId then
      e.source .user else none)
  | none =>
    -- adopted instructions come without the answers of the parent
    let c := { c with verifiedAnswersIncomplete := c.verifiedAnswersIncomplete || inherited }
    match c.userMessages.find? (sameId message) with
    | some e =>
      if e.value = message ∧ e.inherited = inherited then (c, e.source .user)
      else
        { c with userMessages := c.userMessages.eraseP (sameId message) }.pushUserMessage message
          source revision
    | none => c.pushUserMessage message source revision

def recordAssistantMessage (source : InputSource)
    (revision : Text) : RetainedContext × Option RetainedSource :=
  if source = .acceptedAt none then (c, none)
  else
    let message := message.bound
    let isEmpty : Bool := message.complete && message.text.isEmpty
    let inherited : Bool := source = .inherited
    match c.assistantMessages.find? (sameId message) with
    | some e =>
      if e.value = message ∧ e.inherited = inherited ∧ isEmpty = false then
        (c, e.source .assistant)
      else
        push { c with assistantMessages := c.assistantMessages.eraseP (sameId message) } message
          isEmpty
    | none => push c message isEmpty
where
  push (c : RetainedContext) (message : Message) (isEmpty : Bool) :
      RetainedContext × Option RetainedSource :=
    let (order, c) := c.newOrder source
    if isEmpty then (c, none)
    else
      let entry : Ordered Message :=
        { revision := message.messageId.map fun _ => revision
          inherited := source = .inherited
          order
          value := message }
      let (assistantMessages, assistantMessagesIncomplete) :=
        boundFamily Message.fields (c.assistantMessages ++ [entry]) c.assistantMessagesIncomplete
      ({ c with assistantMessages, assistantMessagesIncomplete }, entry.source .assistant)

/-- Whether an entry is the answer to the same call. -/
def sameCall (answer : VerifiedAnswer) (e : Ordered VerifiedAnswer) : Bool :=
  e.value.turnId == answer.turnId && e.value.callId == answer.callId

/-- A new answer at the end of its family. -/
def pushVerifiedAnswer (answer : VerifiedAnswer) (acceptanceOrder : Option ℕ) : RetainedContext :=
  let (order, c) := c.recordOrder acceptanceOrder
  let (verifiedAnswers, verifiedAnswersIncomplete) :=
    boundFamily VerifiedAnswer.fields (c.verifiedAnswers ++ [{ order, value := answer }])
      c.verifiedAnswersIncomplete
  { c with verifiedAnswers, verifiedAnswersIncomplete }

/-- `record` of a verified answer; changed contents replace the record of their source. -/
def recordVerifiedAnswer (answer : VerifiedAnswer)
    (acceptanceOrder : Option ℕ) : RetainedContext × Bool :=
  let answer := answer.bound
  match c.verifiedAnswers.find? (sameCall answer) with
  | some e =>
    if e.value = answer then (c, false)
    else
      ({ c with verifiedAnswers := c.verifiedAnswers.eraseP (sameCall answer) }.pushVerifiedAnswer
        answer acceptanceOrder, true)
  | none => (c.pushVerifiedAnswer answer acceptanceOrder, true)

def record (revision : Text) : Event → RetainedContext × Bool
  | .verifiedAnswer answer acceptanceOrder => c.recordVerifiedAnswer answer acceptanceOrder
  | .deliveredAssistantMessage message acceptanceOrder =>
    let message := message.bound
    if c.assistantMessages.any fun e =>
        message.messageId.isSome && e.value.messageId == message.messageId
          && e.value == message && !e.inherited then (c, false)
    else
      ((c.recordAssistantMessage message (.acceptedAt (some acceptanceOrder)) revision).1, true)

def recordSenderUserMessages (metadata : ItemMetadata) : RetainedContext :=
  match metadata.senderUserMessages with
  | none => c
  | some messages =>
    if c.senderDeliveries.any (·.value.receiverMessageId == messages.receiverMessageId) then c
    else
      let (order, c) := c.recordOrder metadata.userInputOrder
      { c with
        senderDeliveries := (boundFamily SenderUserMessages.fields
          (c.senderDeliveries ++ [{ order, value := messages.bound }]) false).1 }

/-- The deliveries of a checkpoint, each cut. -/
def cutDeliveries (checkpoint : Option RetainedContext) : List (Ordered SenderUserMessages) :=
  (checkpoint.getD { userMessagesIncomplete := true }).senderDeliveries.map fun e =>
    { e with value := e.value.bound }

/-- The first part of `restore`: the records of a checkpoint are cut, and the counter is taken past
the local ones. -/
def cutRecords (checkpoint : Option RetainedContext) : RetainedContext :=
  let c := checkpoint.getD { userMessagesIncomplete := true }
  let verifiedAnswers := c.verifiedAnswers.map fun e => { e with value := e.value.bound }
  let userMessages := c.userMessages.map fun e => { e with value := e.value.bound }
  let assistantMessages := c.assistantMessages.map fun e => { e with value := e.value.bound }
  let orders := verifiedAnswers.map (·.order) ++
    ((userMessages ++ assistantMessages).filter (!·.inherited)).map (·.order) ++
    (cutDeliveries checkpoint).map (·.order)
  { c with
    verifiedAnswers, userMessages, assistantMessages
    senderDeliveries := (boundFamily SenderUserMessages.fields (cutDeliveries checkpoint) false).1
    verifiedAnswersIncomplete :=
      c.verifiedAnswersIncomplete || (userMessages ++ assistantMessages).any (·.inherited)
    nextOrder := orders.foldl (fun next order => max next (succOrder order)) c.nextOrder }

/-- `restore`: the storage limits apply to the checkpoint too. -/
def restore (checkpoint : Option RetainedContext) (surviving : List ItemMetadata) :
    RetainedContext :=
  let c := surviving.foldl recordSenderUserMessages (cutRecords checkpoint)
  let localOrders := (surviving.filter fun (m : ItemMetadata) => !m.inheritedUserMessage).filterMap
    (·.userInputOrder)
  let c := { c with
    nextOrder := localOrders.foldl (fun next order => max next (succOrder order)) c.nextOrder }
  let (verifiedAnswers, verifiedAnswersIncomplete) :=
    boundFamily VerifiedAnswer.fields c.verifiedAnswers c.verifiedAnswersIncomplete
  let (userMessages, userMessagesIncomplete) :=
    boundFamily Message.fields c.userMessages c.userMessagesIncomplete
  let (assistantMessages, assistantMessagesIncomplete) :=
    boundFamily Message.fields c.assistantMessages c.assistantMessagesIncomplete
  { c with
    verifiedAnswers, verifiedAnswersIncomplete, userMessages, userMessagesIncomplete,
    assistantMessages, assistantMessagesIncomplete }

/-- The boundary of a rollback: the given order, or that of the first removed message. -/
def rollbackBoundary (firstRemovedMessageId : Option Text) (source : InputSource) : Option Key :=
  (source.acceptanceOrder.map localKey).or (firstRemovedMessageId.bind fun id =>
    (c.userMessages.find? fun e => e.value.messageId == some id).map (·.key))

def rollback (turnIds : List Text) (firstRemovedMessageId : Option Text)
    (source : InputSource) : RetainedContext :=
  match c.rollbackBoundary firstRemovedMessageId source with
  | some boundary =>
    { c with
      senderDeliveries := c.senderDeliveries.filter (·.key < boundary)
      verifiedAnswers := c.verifiedAnswers.filter (·.key < boundary)
      userMessages := c.userMessages.filter (·.key < boundary)
      assistantMessages := c.assistantMessages.filter (·.key < boundary) }
  | none =>
    { c with
      userMessagesIncomplete := c.userMessagesIncomplete || firstRemovedMessageId.isSome
        || c.userMessages.any fun e => turnIds.contains e.value.turnId
      verifiedAnswers := c.verifiedAnswers.filter fun e =>
        source != .inherited && !turnIds.contains e.value.turnId
      senderDeliveries := c.senderDeliveries.filter fun e =>
        source != .inherited && !turnIds.contains e.value.receiverTurnId
      assistantMessages := c.assistantMessages.filter fun e =>
        (source != .inherited || e.inherited) && !turnIds.contains e.value.turnId
      userMessages := c.userMessages.filter fun e =>
        (source != .inherited || e.inherited) && !turnIds.contains e.value.turnId }

end RetainedContext

end Retained
