/-
# Message boards

The requests and the answers of a message board: channels with posts, threads of replies, and
subscriptions.  Every call is served with the answers of the host: who the caller is, whom an agent
path names, what the time is.
-/
import BetterCodex.RustStr

namespace Board

open RustStr

/-! ## Names -/

/-- `ThreadId`: the UUID of an agent's runtime, as it is displayed. -/
structure ThreadId where
  text : Text
  /-- A UUID is written with hexadecimal digits and hyphens. -/
  noColon : ':' ∉ text
  deriving DecidableEq

structure AgentPath where
  text : Text
  deriving DecidableEq, Repr

/-- The id of a post. -/
abbrev Uuid := ℕ

/-- `DateTime<Utc>`: seconds since the epoch, and nanoseconds. -/
abbrev Time := ℤ ×ₗ ℕ

/-- `timestamp_micros`. -/
def micros (t : Time) : ℤ := (ofLex t).1 * 1000000 + ((ofLex t).2 / 1000 : ℕ)

/-- What the boards use of other crates: case folding and the text of a cursor. -/
structure Crates where
  caseFold : Text → Text
  decodeCursor : Text → Option ℕ
  encodeCursor : ℕ → Text

/-- Why a call fails. -/
inductive Error
  | host
  | invalid (message : Text)
  | storage
  | outOfBounds
  deriving DecidableEq, Repr

/-! ## Answers of a board -/

structure PostMetadata where
  messageId : Uuid
  channelName : Text
  author : AgentPath
  threadId : Uuid
  createdAt : Time
  deriving DecidableEq

structure PostPreview where
  metadata : PostMetadata
  textPreview : Text
  nChars : ℕ
  truncated : Bool
  deriving DecidableEq

structure PostContent where
  metadata : PostMetadata
  text : Text
  nChars : ℕ
  nextOffsetChars : ℕ
  deriving DecidableEq

structure ThreadSummary where
  threadId : Uuid
  rootPost : PostPreview
  replyCount : ℕ
  lastActivityAt : Time
  latestReply : Option PostPreview
  deriving DecidableEq

/-- `ChannelSummary` of a board without restrictions. -/
structure ChannelSummary where
  channelName : Text
  description : Option Text
  createdAt : Time
  createdBy : AgentPath
  messageCount : ℕ
  lastMessageId : Option Uuid
  deriving DecidableEq

structure SubscriptionState where
  channelName : Text
  threadId : Option Uuid
  targetAgent : AgentPath
  enabled : Bool
  lastMessageId : Option Uuid
  deriving DecidableEq

structure Page (T : Type) where
  results : List T
  nextCursor : Option Text
  deriving DecidableEq

/-- A page of other things. -/
def Page.map {S T : Type} (f : S → T) (page : Page S) : Page T where
  results := page.results.map f
  nextCursor := page.nextCursor

structure ThreadPage where
  rootPost : PostPreview
  replies : Page PostPreview
  deriving DecidableEq

/-! ## Requests -/

inductive SubscriptionChange
  | subscribe
  | unsubscribe
  deriving DecidableEq, Repr

inductive SubscriptionTarget
  | channel (name : Text)
  | thread (root : Uuid)
  deriving DecidableEq, Repr

inductive SortDirection
  | newestFirst
  | oldestFirst
  deriving DecidableEq, Repr

inductive ThreadSort
  | created
  | activity
  deriving DecidableEq, Repr

inductive PostDestination
  | channel (name : Text)
  | newChannel (name : Text)
  | thread (root : Uuid)
  deriving DecidableEq, Repr

inductive PostBehavior
  | discussion
  | silentAppend
  deriving DecidableEq, Repr

structure PageRequest where
  cursor : Option Text := none
  limit : ℕ := 20
  limit_pos : 0 < limit := by decide

structure CreateChannelRequest where
  channelName : Text
  description : Option Text
  subscription : SubscriptionChange

structure UpsertChannelRequest where
  channelName : Text
  description : Text

structure PostRequest where
  requestId : Text
  destination : PostDestination
  text : Text
  agentsToNotify : List AgentPath
  deriving DecidableEq

structure AppendRequest where
  requestId : Text
  destination : PostDestination
  text : Text

/-- The request that an append is written with. -/
def AppendRequest.toPost (request : AppendRequest) : PostRequest where
  requestId := request.requestId
  destination := request.destination
  text := request.text
  agentsToNotify := []

structure SubscriptionRequest where
  target : SubscriptionTarget
  targetAgent : Option AgentPath
  change : SubscriptionChange

structure ReadPostRequest where
  messageId : Uuid
  offsetChars : ℕ
  limitChars : ℕ

structure ChannelQuery where
  query : Option Text
  direction : SortDirection
  page : PageRequest

structure ThreadQuery where
  channelName : Text
  sort : ThreadSort
  direction : SortDirection
  page : PageRequest
  maxCharsPerPost : ℕ

structure PostQuery where
  channelName : Option Text
  query : Option Text
  afterMessageId : Option Uuid
  author : Option AgentPath
  page : PageRequest
  maxCharsPerPost : ℕ

structure ReadThreadRequest where
  threadId : Uuid
  page : PageRequest
  maxCharsPerPost : ℕ

/-- A call of `AgentMessageBoard` that is not a post or an append. -/
inductive Call
  | createChannel (request : CreateChannelRequest)
  | upsertChannel (request : UpsertChannelRequest)
  | setSubscription (request : SubscriptionRequest)
  | readPost (request : ReadPostRequest)
  | listChannels (query : ChannelQuery)
  | listThreads (query : ThreadQuery)
  | searchPosts (query : PostQuery)
  | readThread (request : ReadThreadRequest)

/-- What a call is served with: the caller, and the answers of the `MessageBoardHost` while it
runs. -/
structure Answers where
  caller : ThreadId
  agentPath : Option AgentPath
  resolveAgent : AgentPath → Option ThreadId
  currentTime : Option Time

/-- What a successful call returns. -/
inductive Reply
  | channel (summary : ChannelSummary)
  | done
  | subscription (state : SubscriptionState)
  | content (content : PostContent)
  | channels (page : Page ChannelSummary)
  | threads (page : Page ThreadSummary)
  | posts (page : Page PostPreview)
  | thread (page : ThreadPage)
  deriving DecidableEq

/-! ## Checks -/

/-- An invalid request. -/
def invalid {α : Type} (message : String) : Except Error α := .error (.invalid message.toList)

/-- An answer of the host, which may be an error. -/
def ofHost {α : Type} (answer : Option α) : Except Error α :=
  match answer with
  | none => .error .host
  | some a => .ok a

/-- `char::is_control`. -/
def isControl (c : Char) : Bool := c.toNat < 32 || (127 ≤ c.toNat && c.toNat < 160)

def validateChannel (name : Text) : Except Error Unit :=
  if name.isEmpty || decide (128 < utf8Len name) || trim name != name || name.any isControl then
    invalid ("channel names must contain 1–128 bytes without edge whitespace or " ++
      "control characters")
  else .ok ()

/-- The limits of `post_inner`. -/
def checkLimits (request : PostRequest) : Except Error Unit :=
  if request.text.isEmpty || decide (64 * 1024 < utf8Len request.text) ||
      request.requestId.isEmpty || decide (512 < utf8Len request.requestId) ||
      decide (256 < request.agentsToNotify.length) then
    invalid "post text, request ID or recipient count exceeds the board limits"
  else .ok ()

/-- Every agent to notify is resolved. -/
def resolveAgents (answers : Answers) (paths : List AgentPath) : Except Error (Finset ThreadId) := do
  let agents ← paths.mapM fun path => ofHost (answers.resolveAgent path)
  return agents.toFinset

/-- Whether a text is in another. -/
def contains (text part : Text) : Bool := decide (part <:+: text)

/-- The offset of a cursor. -/
def cursorOffset (crates : Crates) (request : PageRequest) : Except Error ℕ :=
  match request.cursor with
  | none => .ok 0
  | some cursor =>
    match crates.decodeCursor cursor with
    | none => invalid "invalid cursor"
    | some offset => .ok offset

/-- The most results of a page. -/
def PageRequest.most (request : PageRequest) : ℕ := min request.limit 50

/-- The cursor behind some results. -/
def nextCursor (crates : Crates) (offset returned : ℕ) (hasMore : Bool) :
    Except Error (Option Text) :=
  if hasMore then
    if offset + returned < 2 ^ 32 then .ok (some (crates.encodeCursor (offset + returned)))
    else invalid "cursor offset exceeds the board limit"
  else .ok none

end Board
