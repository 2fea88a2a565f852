/-
# The items of a conversation history

The items that a history is made of, with the fields that the history code reads
or writes; what it only carries along is one opaque payload.
-/
import BetterCodex.RustStr

namespace History

open RustStr

/-! ## Data -/

inductive ContentItemNamespace where
  | clock
  | functions
  | toolSearch
  | collaboration
  | multiAgentV1
  | other (name : Text)
  deriving DecidableEq, Repr

inductive ContentItemProvenance where
  | unknown
  | developerInstructions (fromAdditionalRequirements : Bool)
  | skills
  | agentsMd
  | harness (hook : Bool)
  | tool (origin : Option ContentItemNamespace)
  | user
  deriving DecidableEq, Repr

/-- `ContentItemMetadata`; the default has unknown provenance. -/
structure ContentItemMetadata where
  provenance : ContentItemProvenance := .unknown
  deriving DecidableEq, Repr

inductive ContentItem (Opaque : Type) where
  | inputText (text : Text)
  | inputImage (image : Opaque)
  | inputAudio (audio : Opaque)
  | outputText (text : Text) (sampling : Opaque)
  deriving DecidableEq, Repr

/-- `FunctionCallOutputContentItem`. -/
inductive OutputContentItem (Opaque : Type) where
  | inputText (text : Text)
  | inputImage (image : Opaque)
  | inputAudio (audioUrl : Text)
  | encryptedContent (content : Text)
  deriving DecidableEq, Repr

/-- `FunctionCallOutputBody`. -/
inductive OutputBody (Opaque : Type) where
  | text (content : Text)
  | contentItems (items : List (OutputContentItem Opaque))
  deriving DecidableEq, Repr

/-- `FunctionCallOutputPayload`. -/
structure OutputPayload (Opaque : Type) where
  body : OutputBody Opaque
  success : Option Bool := none
  deriving DecidableEq, Repr

/-- `InternalChatMessageMetadataPassthrough`; the fields left out are absent in the
default. -/
structure Passthrough (Opaque : Type) where
  turnId : Option Text := none
  contentItemKinds : Option (List Text) := none
  contentItemMetadata : Option (List ContentItemMetadata) := none
  rest : Option Opaque := none
  deriving DecidableEq, Repr

inductive ResponseItem (Opaque : Type) where
  | additionalTools (id : Option Text) (rest : Opaque)
  | message (id : Option Text) (role : Text) (content : List (ContentItem Opaque))
      (passthrough : Option (Passthrough Opaque)) (rest : Opaque)
  | agentMessage (id : Option Text) (passthrough : Option (Passthrough Opaque)) (rest : Opaque)
  | reasoning (id encryptedContent : Option Text) (passthrough : Option (Passthrough Opaque))
      (rest : Opaque)
  | localShellCall (id callId : Option Text) (passthrough : Option (Passthrough Opaque))
      (rest : Opaque)
  | functionCall (id : Option Text) (callId : Text) (passthrough : Option (Passthrough Opaque))
      (rest : Opaque)
  | toolSearchCall (id callId : Option Text) (passthrough : Option (Passthrough Opaque))
      (rest : Opaque)
  | functionCallOutput (id callId name space : Option Text) (output : OutputPayload Opaque)
      (passthrough : Option (Passthrough Opaque))
  | customToolCall (id : Option Text) (callId : Text) (passthrough : Option (Passthrough Opaque))
      (rest : Opaque)
  | customToolCallOutput (id : Option Text) (callId : Text) (name : Option Text)
      (output : OutputPayload Opaque) (passthrough : Option (Passthrough Opaque))
  | toolSearchOutput (id callId : Option Text) (status execution : Text) (tools : List Opaque)
      (passthrough : Option (Passthrough Opaque))
  | webSearchCall (id : Option Text) (passthrough : Option (Passthrough Opaque)) (rest : Opaque)
  | imageGenerationCall (id : Option Text) (result : Text)
      (passthrough : Option (Passthrough Opaque)) (rest : Opaque)
  | compaction (id : Option Text) (passthrough : Option (Passthrough Opaque)) (rest : Opaque)
  | configurationUpdate (rest : Opaque)
  | compactionTrigger
  | contextCompaction (id : Option Text) (passthrough : Option (Passthrough Opaque)) (rest : Opaque)
  | other
  deriving DecidableEq, Repr

/-- `CodexHarnessMetadata`. -/
structure HarnessMetadata (Opaque : Type) where
  inheritedUserMessage : Bool := false
  userInputOrder : Option ℕ := none
  harnessAuthoredConfiguration : Bool := false
  historyTruncationTokenLimit : Option ℕ := none
  rest : Option Opaque := none
  deriving DecidableEq, Repr

/-- `ResponseItemEnvelope`. -/
structure Envelope (Opaque : Type) where
  item : ResponseItem Opaque
  metadata : Option (HarnessMetadata Opaque) := none
  deriving DecidableEq, Repr

variable {Opaque : Type}

/-- `ResponseItemEnvelope::new`. -/
def Envelope.new (item : ResponseItem Opaque) : Envelope Opaque := { item }

/-- `FunctionCallOutputPayload::from_text`. -/
def OutputPayload.fromText (content : Text) : OutputPayload Opaque := { body := .text content }

namespace ResponseItem

/-- `internal_chat_message_metadata_passthrough`. -/
def passthrough? : ResponseItem Opaque → Option (Passthrough Opaque)
  | .message _ _ _ p _ | .agentMessage _ p _ | .reasoning _ _ p _ | .localShellCall _ _ p _
  | .functionCall _ _ p _ | .toolSearchCall _ _ p _ | .functionCallOutput _ _ _ _ _ p
  | .customToolCall _ _ p _ | .customToolCallOutput _ _ _ _ p | .toolSearchOutput _ _ _ _ _ p
  | .webSearchCall _ p _ | .imageGenerationCall _ _ p _ | .compaction _ p _
  | .contextCompaction _ p _ => p
  | .additionalTools _ _ | .configurationUpdate _ | .compactionTrigger | .other => none

/-- `turn_id`: the non-empty turn id stamped onto the item. -/
def turnId (item : ResponseItem Opaque) : Option Text :=
  (item.passthrough?.bind (·.turnId)).filter (· ≠ [])

/-! ## Calls and outputs -/

end ResponseItem

/-- The kinds of outputs: local shell calls are answered like function calls. -/
inductive CallKind where
  | function
  | toolSearch
  | customTool
  deriving DecidableEq, Repr

namespace ResponseItem

/-- The output that a call asks for. -/
def callKey : ResponseItem Opaque → Option (CallKind × Text)
  | .functionCall _ callId _ _ => some (.function, callId)
  | .localShellCall _ (some callId) _ _ => some (.function, callId)
  | .toolSearchCall _ (some callId) _ _ => some (.toolSearch, callId)
  | .customToolCall _ callId _ _ => some (.customTool, callId)
  | _ => none

/-- The call that an output answers. -/
def outputKey : ResponseItem Opaque → Option (CallKind × Text)
  | .functionCallOutput _ (some callId) _ _ _ _ => some (.function, callId)
  | .toolSearchOutput _ (some callId) _ _ _ _ => some (.toolSearch, callId)
  | .customToolCallOutput _ callId _ _ _ => some (.customTool, callId)
  | _ => none

/-- A tool-search output that the server produced. -/
def isServerToolSearchOutput : ResponseItem Opaque → Bool
  | .toolSearchOutput _ _ _ execution _ _ => execution == "server".toList
  | _ => false

theorem outputKey_eq_none_of_callKey {item : ResponseItem Opaque} {key : CallKind × Text}
    (h : item.callKey = some key) : item.outputKey = none := by
  cases item <;> first | rfl | cases h

/-! ## Message content with its annotations -/

structure AnnotatedContent (Opaque : Type) where
  content : ContentItem Opaque
  kind : Text
  metadata : ContentItemMetadata
  deriving DecidableEq, Repr

/-- Content zipped with its kinds and metadata; missing entries are unknown. -/
def annotate : List (ContentItem Opaque) → List Text → List ContentItemMetadata →
    List (AnnotatedContent Opaque)
  | [], _, _ => []
  | content :: contents, kinds, metadata =>
    ⟨content, kinds.headD "unknown".toList, metadata.headD {}⟩ ::
      annotate contents kinds.tail metadata.tail

def toAnnotatedContent : ResponseItem Opaque → Option (List (AnnotatedContent Opaque))
  | .message _ _ content passthrough _ =>
    some (annotate content ((passthrough.bind (·.contentItemKinds)).getD [])
      ((passthrough.bind (·.contentItemMetadata)).getD []))
  | _ => none

/-- `set_annotated_content`; other items than messages stay as they are. -/
def setAnnotatedContent (item : ResponseItem Opaque) (contents : List (AnnotatedContent Opaque)) :
    ResponseItem Opaque :=
  match item with
  | .message id role _ passthrough rest =>
    let metadata := contents.map (·.metadata)
    .message id role (contents.map (·.content))
      (some { passthrough.getD {} with
        contentItemKinds := some (contents.map (·.kind))
        contentItemMetadata := if metadata.any (· != {}) then some metadata else none }) rest
  | item => item

variable (contents : List (AnnotatedContent Opaque))

/-- Content that has just been written is read back as it was. -/
theorem annotate_parts :
    annotate (contents.map (·.content)) (contents.map (·.kind)) (contents.map (·.metadata)) =
      contents := by
  induction contents with
  | nil => rfl
  | cons c cs ih => simp [annotate, ih]

/-- Also if the metadata were left out because all of it is unknown. -/
theorem annotate_parts_default (h : ∀ c ∈ contents, c.metadata = {}) :
    annotate (contents.map (·.content)) (contents.map (·.kind)) [] = contents := by
  induction contents with
  | nil => rfl
  | cons c cs ih =>
    obtain ⟨hc, hcs⟩ := List.forall_mem_cons.1 h
    cases c
    simp_all [annotate]

/-- The content that is set is the one that is read. -/
theorem toAnnotatedContent_set {id : Option Text} {role : Text}
    {content : List (ContentItem Opaque)} {passthrough : Option (Passthrough Opaque)}
    {rest : Opaque} :
    (setAnnotatedContent (.message id role content passthrough rest) contents).toAnnotatedContent =
      some contents := by
  simp only [setAnnotatedContent, toAnnotatedContent]
  split_ifs with hany
  · simp [annotate_parts]
  · simp only [Option.bind_some, Option.getD_some, Option.getD_none]
    rw [annotate_parts_default]
    intro c hc
    by_contra hne
    exact hany (List.any_eq_true.2 ⟨c.metadata, List.mem_map_of_mem hc, by simpa using hne⟩)

theorem setAnnotatedContent_set (item : ResponseItem Opaque)
    (contents contents' : List (AnnotatedContent Opaque)) :
    setAnnotatedContent (setAnnotatedContent item contents) contents' =
      setAnnotatedContent item contents' := by
  cases item <;> rfl

/-! ## Classes of items -/

def isModelGeneratedItem : ResponseItem Opaque → Bool
  | .message _ role _ _ _ => role == "assistant".toList
  | .reasoning .. | .functionCall .. | .toolSearchCall .. | .webSearchCall ..
  | .imageGenerationCall .. | .customToolCall .. | .localShellCall .. | .compaction ..
  | .contextCompaction .. => true
  | .configurationUpdate .. | .compactionTrigger | .additionalTools .. | .functionCallOutput ..
  | .toolSearchOutput .. | .customToolCallOutput .. | .agentMessage .. | .other => false

def isApiMessage (item : ResponseItem Opaque) (metadata : Option (HarnessMetadata Opaque)) : Bool :=
  match item with
  | .message _ role _ _ _ => role != "system".toList
  | .configurationUpdate _ => metadata.any (·.harnessAuthoredConfiguration)
  | .additionalTools .. | .agentMessage .. | .functionCallOutput .. | .functionCall ..
  | .toolSearchCall .. | .toolSearchOutput .. | .customToolCall .. | .customToolCallOutput ..
  | .localShellCall .. | .reasoning .. | .webSearchCall .. | .imageGenerationCall ..
  | .compaction .. | .contextCompaction .. => true
  | .compactionTrigger | .other => false

end ResponseItem

/-- The recognisers of texts that the harness writes itself, which the history code
calls on message content. -/
structure Recognizers (Opaque : Type) where
  /-- `is_contextual_user_message_content`. -/
  isContextualUserMessage : List (ContentItem Opaque) → Bool
  /-- `is_summary_message`. -/
  isSummaryMessage : Text → Bool
  /-- `InterAgentCommunication::is_message_content`. -/
  isInterAgentInstruction : List (ContentItem Opaque) → Bool
  /-- `contextual_dev_fragments`: which parts of a developer message are contextual. -/
  contextualDevFragments : List (ContentItem Opaque) → List Text → List Bool
  /-- `ModelSwitchInstructions::matches_text` or `PersistentModeState::matches_text`. -/
  isModelOrModeText : Text → Bool

def isUserTurnBoundary (recog : Recognizers Opaque) : ResponseItem Opaque → Bool
  | .agentMessage .. => true
  | .message _ role content _ _ =>
    (role == "user".toList && !recog.isContextualUserMessage content
        && !content.any fun
          | .inputText text => recog.isSummaryMessage text
          | _ => false)
      || (role == "assistant".toList && recog.isInterAgentInstruction content)
  | _ => false

end History
