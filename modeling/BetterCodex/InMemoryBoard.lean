/-
# The board in memory

A board that keeps its posts in a list, with indexes beside it: by id, by request, by channel, and
by thread, and for every channel and thread the newest post so far.
-/
import BetterCodex.MessageBoard

namespace Board.InMemory

open RustStr

structure Post where
  metadata : PostMetadata
  request : PostRequest
  behavior : PostBehavior
  search : Text
  nChars : ℕ
  replies : List ℕ := []
  latestReply : Option ℕ := none
  deriving DecidableEq

def Post.preview (post : Post) (maxChars : ℕ) : PostPreview where
  metadata := post.metadata
  textPreview := post.request.text.take maxChars
  nChars := post.nChars
  truncated := maxChars < post.nChars

structure Channel where
  summary : ChannelSummary
  search : Text
  posts : List ℕ := []
  roots : List ℕ := []
  deriving DecidableEq

/-- `State`.  The channels stand in the order they were made; no two have one name. -/
structure State where
  channels : List Channel := []
  posts : List Post := []
  byId : Uuid → Option ℕ := fun _ => none
  requests : ThreadId × Text → Option ℕ := fun _ => none
  subscriptions : SubscriptionTarget → List (ThreadId × SubscriptionChange) := fun _ => []

namespace State

/-- The channel of a name. -/
def channel (s : State) (name : Text) : Option Channel :=
  s.channels.find? fun channel => channel.summary.channelName = name

variable (s : State)

/-- A channel changes. -/
def modifyChannel (name : Text) (change : Channel → Channel) : State :=
  { s with
    channels := s.channels.map fun channel =>
      if channel.summary.channelName = name then change channel else channel }

/-- The post at an index. -/
def post (s : State) (index : ℕ) : Except Error Post :=
  match s.posts[index]? with
  | none => .error .outOfBounds
  | some post => .ok post

def postIndex (id : Uuid) : Except Error ℕ :=
  match s.byId id with
  | none => invalid "post not found in this board"
  | some index => .ok index

def threadIndex (id : Uuid) : Except Error ℕ := do
  let index ← s.postIndex id
  let post ← s.post index
  if post.metadata.threadId ≠ id then invalid "thread_id must identify a top-level post"
  else return index

/-- `key`: posts are ordered by their time, and by their index. -/
def key (index : ℕ) : ℤ ×ₗ ℕ :=
  toLex (((s.posts[index]?).map fun post => micros post.metadata.createdAt).getD 0, index)

def existingPost (caller : ThreadId) (request : PostRequest)
    (behavior : PostBehavior) : Except Error (Option PostMetadata) :=
  match s.requests (caller, request.requestId) with
  | none => .ok none
  | some index => do
    let post ← s.post index
    if post.request ≠ request ∨ post.behavior ≠ behavior then
      invalid "request ID was already used for a different post"
    else return some post.metadata

variable (crates : Crates)

def insertChannel (name : Text) (description : Option Text)
    (author : AgentPath) (now : Time) : Except Error State := do
  validateChannel name
  if (s.channel name).isSome then invalid "channel already exists"
  else
    return { s with
      channels := s.channels ++ [{
        summary := {
          channelName := name
          description
          createdAt := now
          createdBy := author
          messageCount := 0
          lastMessageId := none }
        search := crates.caseFold name }] }

/-- `subscribe`: an earlier change of the agent stays. -/
def subscribe (target : SubscriptionTarget) (caller : ThreadId) : State :=
  if ((s.subscriptions target).lookup caller).isSome then s
  else
    { s with
      subscriptions := Function.update s.subscriptions target
        ((caller, .subscribe) :: s.subscriptions target) }

/-- An agent changes its subscription. -/
def changeSubscription (target : SubscriptionTarget) (agent : ThreadId)
    (change : SubscriptionChange) : State :=
  { s with
    subscriptions := Function.update s.subscriptions target
      ((agent, change) :: (s.subscriptions target).filter fun entry => entry.1 ≠ agent) }

/-- The agents that subscribe to a target. -/
def subscribers (target : SubscriptionTarget) : Finset ThreadId :=
  (((s.subscriptions target).filter fun entry => entry.2 = .subscribe).map Prod.fst).toFinset

/-- Where a post goes: its channel, its root, and what its readers subscribe to. -/
structure Placement where
  channelName : Text
  root : Uuid
  target : SubscriptionTarget

/-- The destination of a post, with the channel that is made for it. -/
def place (caller : ThreadId) (request : PostRequest)
    (behavior : PostBehavior) (author : AgentPath) (now : Time) (id : Uuid) :
    Except Error (State × Placement) :=
  match request.destination with
  | .channel name =>
    if (s.channel name).isNone then invalid "channel not found in this board"
    else return (s, ⟨name, id, .channel name⟩)
  | .newChannel name => do
    let s ← s.insertChannel crates name none author now
    let s := if behavior = .discussion then s.subscribe (.channel name) caller else s
    return (s, ⟨name, id, .channel name⟩)
  | .thread root => do
    let index ← s.threadIndex root
    let post ← s.post index
    return (s, ⟨post.metadata.channelName, root, .thread root⟩)

/-- Whether the post at an index is newer than the newest so far. -/
def isNewest (index : ℕ) (last : Option ℕ) : Bool :=
  match last with
  | none => true
  | some last => s.key last < s.key index

/-- A post is put at the end of the list, and is found by its id and its request. -/
def pushPost (caller : ThreadId) (post : Post) : State :=
  { s with
    requests := Function.update s.requests (caller, post.request.requestId) (some s.posts.length)
    byId := Function.update s.byId post.metadata.messageId (some s.posts.length)
    posts := s.posts ++ [post] }

/-- The channel of a new post counts it. -/
def recordInChannel (index : ℕ) (post : Post) : State :=
  let last := (s.channel post.metadata.channelName).bind fun channel =>
    channel.summary.lastMessageId.bind s.byId
  let newest := s.isNewest index last
  s.modifyChannel post.metadata.channelName fun channel =>
    { channel with
      posts := channel.posts ++ [index]
      roots := if post.metadata.threadId = post.metadata.messageId then channel.roots ++ [index]
        else channel.roots
      summary := { channel.summary with
        messageCount := channel.summary.messageCount + 1
        lastMessageId := if newest then some post.metadata.messageId
          else channel.summary.lastMessageId } }

/-- The root of a new reply knows it. -/
def recordInThread (index : ℕ) (post : Post) : State :=
  if post.metadata.threadId = post.metadata.messageId then s
  else
    match s.byId post.metadata.threadId with
    | none => s
    | some rootIndex =>
      { s with
        posts := s.posts.modify rootIndex fun thread =>
          { thread with
            replies := thread.replies ++ [index]
            latestReply :=
              if s.isNewest index thread.latestReply then some index else thread.latestReply } }

/-- A new post in the list and in the indexes. -/
def indexPost (caller : ThreadId) (post : Post) : State :=
  ((s.pushPost caller post).recordInChannel s.posts.length post).recordInThread s.posts.length post

/-- The second lock section of `post_inner`: the metadata of the stored post, and whom to notify. -/
def storePost (caller : ThreadId) (request : PostRequest)
    (behavior : PostBehavior) (author : AgentPath) (recipients : Finset ThreadId) (now : Time)
    (id : Uuid) : Except Error (State × Post × Finset ThreadId) := do
  let (s, placement) ← s.place crates caller request behavior author now id
  let recipients :=
    if behavior = .discussion then recipients ∪ s.subscribers placement.target else recipients
  let post : Post := {
    metadata := {
      messageId := id
      channelName := placement.channelName
      author
      threadId := placement.root
      createdAt := now }
    search := crates.caseFold request.text
    nChars := request.text.length
    request
    behavior }
  let s := s.indexPost caller post
  let s := if behavior = .discussion then s.subscribe (.thread placement.root) caller else s
  return (s, post, recipients.erase caller)

/-! ## Calls -/

/-- A call that changes nothing. -/
def asks (reply : Except Error Reply) : Except Error Reply × State := (reply, s)

/-- A call that changes the state if it succeeds. -/
def tells (result : Except Error (Reply × State)) : Except Error Reply × State :=
  match result with
  | .error e => (.error e, s)
  | .ok (reply, s) => (.ok reply, s)

variable (answers : Answers)

def createChannel (request : CreateChannelRequest) : Except Error (Reply × State) := do
  let author ← ofHost answers.agentPath
  let now ← ofHost answers.currentTime
  let s ← s.insertChannel crates request.channelName request.description author now
  let s := if request.subscription = .subscribe then
    s.subscribe (.channel request.channelName) answers.caller else s
  match s.channel request.channelName with
  | none => .error .outOfBounds
  | some channel => return (.channel channel.summary, s)

/-- `upsert_channel`, when nobody else makes the channel in between. -/
def upsertChannel (request : UpsertChannelRequest) : Except Error (Reply × State) := do
  validateChannel request.channelName
  let author ← ofHost answers.agentPath
  if (s.channel request.channelName).isSome then
    return (.done, s.modifyChannel request.channelName fun channel =>
      { channel with summary := { channel.summary with description := some request.description } })
  else
    let now ← ofHost answers.currentTime
    let s ← s.insertChannel crates request.channelName (some request.description) author now
    return (.done, s)

/-- The last message of a target, with its channel and its root. -/
def lastMessage (target : SubscriptionTarget) : Except Error (Text × Option Uuid × Option Uuid) :=
  match target with
  | .channel name =>
    match s.channel name with
    | none => invalid "channel not found in this board"
    | some channel => return (name, none, channel.summary.lastMessageId)
  | .thread root => do
    let index ← s.threadIndex root
    let post ← s.post index
    let last := (post.latestReply.filter fun last => s.key index < s.key last).getD index
    let lastPost ← s.post last
    return (post.metadata.channelName, some root, some lastPost.metadata.messageId)

def setSubscription (request : SubscriptionRequest) :
    Except Error (Reply × State) := do
  let callerPath ← ofHost answers.agentPath
  let targetPath := request.targetAgent.getD callerPath
  let targetAgent ← ofHost (answers.resolveAgent targetPath)
  let (channelName, threadId, lastMessageId) ← s.lastMessage request.target
  return (.subscription {
      channelName, threadId, lastMessageId
      targetAgent := targetPath
      enabled := request.change = .subscribe },
    s.changeSubscription request.target targetAgent request.change)

def readPost (request : ReadPostRequest) : Except Error Reply := do
  let _ ← ofHost answers.agentPath
  let index ← s.postIndex request.messageId
  let post ← s.post index
  let offset := min request.offsetChars post.nChars
  let text := (post.request.text.drop offset).take (min request.limitChars 20000)
  return .content {
    metadata := post.metadata
    nChars := post.nChars
    nextOffsetChars := offset + text.length
    text }

def page {T : Type} (crates : Crates) (request : PageRequest) (results : List T) :
    Except Error (Page T) := do
  let offset ← cursorOffset crates request
  let fetched := (results.drop offset).take (request.most + 1)
  let hasMore : Bool := request.most < fetched.length
  let results := fetched.take request.most
  let next ← nextCursor crates offset results.length hasMore
  return { results, nextCursor := next }

/-- The channels in the order of their last activity, and of their names. -/
def channelKey (channel : Channel) : ℤ ×ₗ Text :=
  let activity := match channel.summary.lastMessageId with
    | none => micros channel.summary.createdAt
    | some id => (ofLex (s.key ((s.byId id).getD 0))).1
  toLex (activity, channel.summary.channelName)

/-- A list that is sorted from the oldest to the newest, in the direction that is asked for. -/
def directed {T : Type} (direction : SortDirection) (sorted : List T) : List T :=
  if direction = .newestFirst then sorted.reverse else sorted

/-- The channels that a query finds, in its order. -/
def foundChannels (query : ChannelQuery) : List Channel :=
  let search := crates.caseFold (query.query.getD [])
  let channels := s.channels.filter fun channel => contains channel.search search
  let channels := channels.insertionSort fun a b => s.channelKey a ≤ s.channelKey b
  directed query.direction channels

def listChannels (query : ChannelQuery) :
    Except Error Reply := do
  let _ ← ofHost answers.agentPath
  let page ← page crates query.page (s.foundChannels crates query)
  return .channels (page.map Channel.summary)

/-- The key by which threads are sorted. -/
def threadKey (sort : ThreadSort) (index : ℕ) : ℤ ×ₗ ℕ :=
  let created := (ofLex (s.key index)).1
  let timestamp := match sort with
    | .created => created
    | .activity =>
      match (s.posts[index]?).bind Post.latestReply with
      | none => created
      | some reply => max created (ofLex (s.key reply)).1
  toLex (timestamp, index)

/-- The summary of a thread. -/
def threadSummary (chars : ℕ) (root : Post) : ThreadSummary :=
  let last := root.latestReply.bind fun reply => s.posts[reply]?
  { threadId := root.metadata.messageId
    rootPost := root.preview chars
    replyCount := root.replies.length
    lastActivityAt := match last with
      | none => root.metadata.createdAt
      | some last => max last.metadata.createdAt root.metadata.createdAt
    latestReply := last.map fun post => post.preview chars }

def listThreads (query : ThreadQuery) :
    Except Error Reply := do
  let _ ← ofHost answers.agentPath
  match s.channel query.channelName with
  | none => invalid "channel not found in this board"
  | some channel =>
    let roots := channel.roots.insertionSort fun a b =>
      s.threadKey query.sort a ≤ s.threadKey query.sort b
    let page ← page crates query.page (directed query.direction roots)
    let chars := min query.maxCharsPerPost (20000 / (2 * max page.results.length 1))
    let roots ← page.results.mapM s.post
    return .threads {
      results := roots.map (s.threadSummary chars)
      nextCursor := page.nextCursor }

/-- The newest first. -/
def newestFirst (indexes : List ℕ) : List ℕ :=
  indexes.insertionSort fun a b => s.key b ≤ s.key a

/-- Whether a search finds the post at an index. -/
def found (query : PostQuery) (after : Option (ℤ ×ₗ ℕ)) (index : ℕ) : Bool :=
  match s.posts[index]? with
  | none => false
  | some post =>
    query.author.all (fun author => author = post.metadata.author) &&
      query.query.all (fun text => contains post.search (crates.caseFold text)) &&
      after.all (fun after => after < s.key index)

def searchPosts (query : PostQuery) :
    Except Error Reply := do
  let _ ← ofHost answers.agentPath
  let after ← query.afterMessageId.mapM fun id => do
    let index ← s.postIndex id
    return s.key index
  let posts := match query.channelName with
    | some name => ((s.channel name).map Channel.posts).getD []
    | none => List.range s.posts.length
  let posts := s.newestFirst (posts.filter (s.found crates query after))
  let page ← page crates query.page posts
  let chars := min query.maxCharsPerPost (20000 / max page.results.length 1)
  let posts ← page.results.mapM s.post
  return .posts {
    results := posts.map fun post => post.preview chars
    nextCursor := page.nextCursor }

def readThread (request : ReadThreadRequest) :
    Except Error Reply := do
  let _ ← ofHost answers.agentPath
  let index ← s.threadIndex request.threadId
  let root ← s.post index
  let page ← page crates request.page (s.newestFirst root.replies)
  let chars := min request.maxCharsPerPost (20000 / (page.results.length + 1))
  let posts ← page.results.mapM s.post
  return .thread {
    rootPost := root.preview chars
    replies := {
      results := posts.map fun post => post.preview chars
      nextCursor := page.nextCursor } }

/-- A call on a board in memory. -/
def serve : Call → Except Error Reply × State
  | .createChannel request => s.tells (s.createChannel crates answers request)
  | .upsertChannel request => s.tells (s.upsertChannel crates answers request)
  | .setSubscription request => s.tells (s.setSubscription answers request)
  | .readPost request => s.asks (s.readPost answers request)
  | .listChannels query => s.asks (s.listChannels crates answers query)
  | .listThreads query => s.asks (s.listThreads crates answers query)
  | .searchPosts query => s.asks (s.searchPosts crates answers query)
  | .readThread request => s.asks (s.readThread crates answers request)

end State

end Board.InMemory
