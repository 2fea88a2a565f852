/-
# The context of a Guardian request

A request to the reviewer is composed of sections.  A section delivers user content, item by item,
or one native message.  Every item has a retention, which says what may happen to it when the
request does not fit, and a cost in estimated tokens; the items of a section share its framing.
-/
import BetterCodex.Indices
import BetterCodex.RetainedContext

namespace Guardian

open RustStr JsonSize

/-! ## Evidence -/

/-- `BudgetPriority`: what leaves first stands first. -/
inductive BudgetPriority
  | toolDescription
  | commentary
  | tool
  | image
  deriving DecidableEq, Repr

def BudgetPriority.rank : BudgetPriority → ℕ
  | .toolDescription => 0
  | .commentary => 1
  | .tool => 2
  | .image => 3

inductive Retention
  | required
  | historical
  | optional (priority : BudgetPriority)
  deriving DecidableEq, Repr

def Retention.isOptional : Retention → Bool
  | .optional _ => true
  | _ => false

/-- Content items other than input text (images, audio, output text), with what `content_tokens` and
`evidence_bytes` give for them. -/
structure Media where
  payload : Text
  tokens : ℕ
  bytes : ℕ
  tokens_pos : 0 < tokens
  deriving DecidableEq

inductive ContentItem
  | inputText (text : Text)
  | media (media : Media)
  deriving DecidableEq

inductive TranscriptFormat
  | line
  | json
  deriving DecidableEq, Repr

/-- `TranscriptRecord`; what it caches is computed from the other fields. -/
structure TranscriptRecord where
  author : Text
  index : ℕ
  label : Option Text
  retainedSourceOrder : Option Text
  text : Text
  format : TranscriptFormat
  lead : Text
  suffix : Text
  deriving DecidableEq, Repr

inductive SectionContent
  | transcript (record : TranscriptRecord)
  | exact (item : ContentItem)
  | other (item : ContentItem)
  deriving DecidableEq

structure Budgeted (α : Type) where
  content : α
  isProtected : Bool
  source : Option Retained.RetainedSource
  retention : Retention
  deriving DecidableEq

def Budgeted.required {α : Type} (content : α) : Budgeted α := ⟨content, false, none, .required⟩

/-- A native message, with what `native_tool_call::estimate_tokens` and its serialization give. -/
structure NativeMessage where
  payload : Text
  tokens : ℕ
  bytes : ℕ
  tokens_pos : 0 < tokens
  deriving DecidableEq

inductive SectionDelivery
  | userContent (items : List (Budgeted SectionContent))
  | message (message : Budgeted NativeMessage)
  deriving DecidableEq

/-- The names of the sections. -/
inductive SectionId
  | intro
  | rootConversation
  | senderUserMessages
  | retainedUserInstructions
  | trustedUserAnswers
  | conversationTranscript
  | permissions
  | previousReviews
  | trustedTool
  | trustedSkills
  | transcriptImages
  | nodeReplEvidence
  | plannedAction
  | budgetOmission
  deriving DecidableEq, Repr

structure SectionOutput where
  id : SectionId
  delivery : SectionDelivery
  deriving DecidableEq

structure TruncationObservation where
  component : SectionId
  originalBytes : ℕ
  retainedBytes : ℕ
  deriving DecidableEq, Repr

structure ComposedContext where
  sections : List SectionOutput
  truncations : List TruncationObservation
  deriving DecidableEq

structure RequestBudget where
  maxInputTokens : ℕ
  existingContextTokens : ℕ
  deriving DecidableEq, Repr

/-- `SectionError`, as far as preparation raises it. -/
inductive SectionError
  | conflictingNativeMessage
  | unsupportedDelivery (name : Text)
  | evidenceLimitExceeded (name : Text)
  deriving DecidableEq, Repr

/-- The error of a request that does not fit. -/
def SectionError.requestBudget : SectionError := .evidenceLimitExceeded "request_budget".toList

/-! ## Rendering -/

def hexDigit (n : ℕ) : Char := if n < 10 then Char.ofNat (48 + n) else Char.ofNat (87 + n)

/-- A character in a JSON string. -/
def escapeChar (c : Char) : Text :=
  if c = '"' then ['\\', '"']
  else if c = '\\' then ['\\', '\\']
  else if c = '\n' then ['\\', 'n']
  else if c = '\r' then ['\\', 'r']
  else if c = '\t' then ['\\', 't']
  else if c = '\x08' then ['\\', 'b']
  else if c = '\x0c' then ['\\', 'f']
  else if c.toNat < 32 then ['\\', 'u', '0', '0', hexDigit (c.toNat / 16), hexDigit (c.toNat % 16)]
  else [c]

/-- A text as a JSON string. -/
def quoted (text : Text) : Text := '"' :: text.flatMap escapeChar ++ ['"']

/-- A field of a JSON object. -/
def field (key : String) (value : Text) : Text := quoted key.toList ++ ':' :: value

/-- The JSON of a record. -/
def TranscriptRecord.json (record : TranscriptRecord) : Text :=
  let fields := [field "author" (quoted record.author), field "index" (Nat.toDigits 10 record.index)] ++
    (record.label.map fun label => field "label" (quoted label)).toList ++
    (record.retainedSourceOrder.map fun order => field "retained_source_order" (quoted order)).toList ++
    [field "text" (quoted record.text)]
  '\x7b' :: (fields.intersperse [',']).flatten ++ ['\x7d']

/-- A line of a retained user message. -/
def userLine (line : Text) : Text := if line = [] then ['\n'] else "user: ".toList ++ line ++ ['\n']

/-- `Display` of a record. -/
def TranscriptRecord.render (record : TranscriptRecord) : Text :=
  let body := match record.format with
    | .json => record.json
    | .line =>
      let number := '[' :: Nat.toDigits 10 record.index ++ [']', ' ']
      match record.retainedSourceOrder with
      | some order =>
        number ++ "Retained source order: ".toList ++ order ++ '\n' :: (lines record.text).flatMap userLine
      | none => number ++ record.label.getD record.author ++ ": ".toList ++ record.text
  record.lead ++ body ++ record.suffix

/-! ## The estimate -/

/-- `approx_tokens_from_byte_count`: four bytes a token, rounded up. -/
def tokensOfBytes (bytes : ℕ) : ℕ := (bytes + 3) / 4

/-- `approx_bytes_for_tokens`. -/
def bytesOfTokens (tokens : ℕ) : ℕ := tokens * 4

def maxTextPartEstimatedTokens : ℕ := 9000

/-- `bounded_text_parts`.  Every part but the last is at least one character long, so the length of
the text is enough fuel. -/
def boundedTextParts : ℕ → Text → List Text
  | 0, text => [text]
  | fuel + 1, text =>
    let part := floorBytes (bytesOfTokens maxTextPartEstimatedTokens) text
    let rest := text.drop part.length
    if rest = [] then [part] else part :: boundedTextParts fuel rest

/-- The size of an input text item as JSON. -/
def inputTextBytes (text : Text) : ℕ :=
  jsonObject [jsonField "type".toList (jsonString "input_text".toList),
    jsonField "text".toList (jsonString text)]

def contentTokens : ContentItem → ℕ
  | .inputText text =>
    let extraParts := (boundedTextParts text.length text).length - 1
    tokensOfBytes (inputTextBytes text + extraParts * (inputTextBytes [] + 1))
  | .media media => media.tokens

def sectionContentTokens : SectionContent → ℕ
  | .transcript record => contentTokens (.inputText record.render)
  | .exact item => contentTokens item
  | .other item => contentTokens item

/-- The size of an empty user message as JSON. -/
def emptyUserMessageBytes : ℕ :=
  jsonObject [jsonField "type".toList (jsonString "message".toList),
    jsonField "role".toList (jsonString "user".toList), jsonField "content".toList (jsonArray [])]

def contentFramingTokens (itemCount : ℕ) : ℕ :=
  if itemCount = 0 then 0 else tokensOfBytes emptyUserMessageBytes + tokensOfBytes (itemCount - 1)

/-- What the items of a section cost together. -/
def itemsTokens (items : List (Budgeted SectionContent)) : ℕ :=
  contentFramingTokens items.length + (items.map fun item => sectionContentTokens item.content).sum

def sectionTokens (s : SectionOutput) : ℕ :=
  match s.delivery with
  | .userContent items => itemsTokens items
  | .message message => message.content.tokens

/-- `ComposedContext::estimated_tokens`. -/
def estimatedTokens (sections : List SectionOutput) : ℕ := (sections.map sectionTokens).sum

/-! ## Texts -/

/-- The text of the omission marker. -/
def omissionMarker (omittedTokens : ℕ) : Text :=
  "<truncated omitted_approx_tokens=\"".toList ++ Nat.toDigits 10 omittedTokens ++ "\" />".toList

/-- The longest part at the end that fits. -/
def floorBytesEnd (n : ℕ) (text : Text) : Text := (floorBytes n text.reverse).reverse

def truncateText (text : Text) (maxTokens : ℕ) : Text :=
  let maxBytes := bytesOfTokens maxTokens
  if utf8Len text ≤ maxBytes then text
  else
    let marker := omissionMarker (tokensOfBytes (utf8Len text - maxBytes))
    if maxBytes ≤ utf8Len marker then marker
    else
      let availableBytes := maxBytes - utf8Len marker
      let frontBytes := availableBytes / 2
      floorBytes frontBytes text ++ marker ++ floorBytesEnd (availableBytes - frontBytes) text

/-- The text that `replace_text` gives back, if there is one to replace. -/
def SectionContent.body : SectionContent → Option Text
  | .transcript record => some record.text
  | .other (.inputText text) => some text
  | _ => none

def SectionContent.replaceText (content : SectionContent) (text : Text) : SectionContent :=
  match content with
  | .transcript record => .transcript { record with text }
  | .other (.inputText _) => .other (.inputText text)
  | content => content

def SectionContent.evidenceBytes : SectionContent → ℕ
  | .transcript record => utf8Len record.render
  | .exact (.inputText text) => utf8Len text
  | .other (.inputText text) => utf8Len text
  | .exact (.media media) => media.bytes
  | .other (.media media) => media.bytes

/-! ## What things cost -/

theorem tokensOfBytes_mono {m n : ℕ} (h : m ≤ n) : tokensOfBytes m ≤ tokensOfBytes n := by
  unfold tokensOfBytes
  omega

theorem contentFramingTokens_mono {m n : ℕ} (h : m ≤ n) :
    contentFramingTokens m ≤ contentFramingTokens n := by
  unfold contentFramingTokens
  by_cases hm : m = 0
  · rw [if_pos hm]
    exact Nat.zero_le _
  · rw [if_neg hm, if_neg (by omega)]
    exact Nat.add_le_add_left (tokensOfBytes_mono (by omega)) _

theorem contentTokens_pos (item : ContentItem) : 0 < contentTokens item := by
  cases item with
  | inputText text =>
    show 0 < tokensOfBytes (inputTextBytes text + _)
    have hbytes : 2 ≤ inputTextBytes text := by
      unfold inputTextBytes jsonObject
      omega
    unfold tokensOfBytes
    omega
  | media media => exact media.tokens_pos

theorem sectionContentTokens_pos (content : SectionContent) : 0 < sectionContentTokens content := by
  cases content with
  | transcript record => exact contentTokens_pos (.inputText record.render)
  | exact item => exact contentTokens_pos item
  | other item => exact contentTokens_pos item

theorem estimatedTokens_append (sections sections' : List SectionOutput) :
    estimatedTokens (sections ++ sections') = estimatedTokens sections + estimatedTokens sections' := by
  unfold estimatedTokens
  rw [List.map_append, List.sum_append]

end Guardian
