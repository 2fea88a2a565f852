/-
# Concurrent posts on a board in memory

A post on a board in memory looks for an earlier post with its request id, asks the host about the
recipients and the time without the lock, looks again, and stores the post; then it sends the
notices.  Here any number of posts and appends do so at once, with one step for every lock section.
-/
import BetterCodex.InMemoryBoard

namespace Board.InMemory

open RustStr List Option

/-! ## The system -/

/-- Where a call of `post_inner` stands. -/
inductive Phase
  | started
  /-- The request is within the limits, and the host knows the caller. -/
  | known (author : AgentPath)
  /-- The first lock section found no earlier post. -/
  | unseen (author : AgentPath)
  /-- The host has answered. -/
  | ready (author : AgentPath) (recipients : Finset ThreadId) (now : Time)
  /-- The post is stored, and some recipients have not been notified yet. -/
  | notifying (metadata : PostMetadata) (pending : Finset ThreadId)
  | finished (result : Except Error PostMetadata)

/-- A call of `post_inner`.  `stored` is the index of the post that it stored. -/
structure Writer where
  caller : ThreadId
  request : PostRequest
  behavior : PostBehavior
  phase : Phase := .started
  stored : Option ℕ := none

/-- What identifies the request of a call. -/
def Writer.key (w : Writer) : ThreadId × Text := (w.caller, w.request.requestId)

/-- What a call has returned. -/
def Writer.result (w : Writer) : Option (Except Error PostMetadata) :=
  match w.phase with
  | .finished result => some result
  | _ => none

/-- A board with the calls on it, and the notices that were sent: of which post, and to whom. -/
structure System where
  board : State := {}
  writers : List Writer := []
  notices : List (ℕ × ThreadId) := []

/-- The steps of a system.  A writer is named by its place among the writers. -/
inductive Step
  | post (caller : ThreadId) (request : PostRequest)
  | append (caller : ThreadId) (request : AppendRequest)
  /-- The checks before the first lock section. -/
  | begin (writer : ℕ) (agentPath : Option AgentPath)
  /-- The first lock section. -/
  | look (writer : ℕ)
  /-- The answers of the host between the lock sections. -/
  | resolve (writer : ℕ) (answers : Answers)
  /-- The second lock section. -/
  | store (writer : ℕ) (id : Uuid)
  /-- One recipient is notified. -/
  | notify (writer : ℕ) (recipient : ThreadId)
  /-- Everybody is notified. -/
  | finish (writer : ℕ)
  /-- Another call on the board. -/
  | other (answers : Answers) (call : Call)

/-- The second lock section of `post_inner`. -/
def State.writeSection (s : State) (crates : Crates) (caller : ThreadId) (request : PostRequest)
    (behavior : PostBehavior) (author : AgentPath) (recipients : Finset ThreadId) (now : Time)
    (id : Uuid) : Except Error (PostMetadata × Option (State × Finset ThreadId)) := do
  match ← s.existingPost caller request behavior with
  | some metadata => return (metadata, none)
  | none =>
    let (s, post, recipients) ← s.storePost crates caller request behavior author recipients now id
    return (post.metadata, some (s, recipients))

/-- The next phase of a call after the checks. -/
def Writer.begin (w : Writer) (agentPath : Option AgentPath) : Writer :=
  { w with phase :=
      match (do checkLimits w.request; ofHost agentPath : Except Error AgentPath) with
      | .error e => .finished (.error e)
      | .ok author => .known author }

/-- The next phase of a call after its first lock section. -/
def Writer.look (w : Writer) (s : State) (author : AgentPath) : Writer :=
  { w with phase :=
      match s.existingPost w.caller w.request w.behavior with
      | .error e => .finished (.error e)
      | .ok (some metadata) => .finished (.ok metadata)
      | .ok none => .unseen author }

/-- The next phase of a call after the host has answered. -/
def Writer.resolve (w : Writer) (answers : Answers) (author : AgentPath) : Writer :=
  { w with phase :=
      match (do
        let recipients ← resolveAgents answers w.request.agentsToNotify
        let now ← ofHost answers.currentTime
        return (recipients, now) : Except Error (Finset ThreadId × Time)) with
      | .error e => .finished (.error e)
      | .ok (recipients, now) => .ready author recipients now }

namespace System

/-- A writer changes. -/
def setWriter (sys : System) (i : ℕ) (w : Writer) : System :=
  { sys with writers := sys.writers.set i w }

/-- The second lock section of a writer. -/
def store (sys : System) (crates : Crates) (i : ℕ) (w : Writer) (author : AgentPath)
    (recipients : Finset ThreadId) (now : Time) (id : Uuid) : System :=
  match sys.board.writeSection crates w.caller w.request w.behavior author recipients now id with
  | .error e => sys.setWriter i { w with phase := .finished (.error e) }
  | .ok (metadata, none) => sys.setWriter i { w with phase := .finished (.ok metadata) }
  | .ok (metadata, some (board, pending)) =>
    { sys with
      board
      writers := sys.writers.set i { w with
        phase := .notifying metadata pending
        stored := some sys.board.posts.length } }

/-- One step; a step that is not possible changes nothing. -/
def step (crates : Crates) (sys : System) : Step → System
  | .post caller request =>
    { sys with writers := sys.writers ++ [{ caller, request, behavior := .discussion }] }
  | .append caller request =>
    { sys with
      writers := sys.writers ++ [{ caller, request := request.toPost, behavior := .silentAppend }] }
  | .begin i agentPath =>
    match sys.writers[i]? with
    | some w =>
      match w.phase with
      | .started => sys.setWriter i (w.begin agentPath)
      | _ => sys
    | none => sys
  | .look i =>
    match sys.writers[i]? with
    | some w =>
      match w.phase with
      | .known author => sys.setWriter i (w.look sys.board author)
      | _ => sys
    | none => sys
  | .resolve i answers =>
    match sys.writers[i]? with
    | some w =>
      match w.phase with
      | .unseen author => sys.setWriter i (w.resolve answers author)
      | _ => sys
    | none => sys
  | .store i id =>
    match sys.writers[i]? with
    | some w =>
      match w.phase with
      | .ready author recipients now => sys.store crates i w author recipients now id
      | _ => sys
    | none => sys
  | .notify i recipient =>
    match sys.writers[i]? with
    | some w =>
      match w.phase, w.stored with
      | .notifying metadata pending, some index =>
        if recipient ∈ pending then
          { sys with
            writers := sys.writers.set i
              { w with phase := .notifying metadata (pending.erase recipient) }
            notices := (index, recipient) :: sys.notices }
        else sys
      | _, _ => sys
    | none => sys
  | .finish i =>
    match sys.writers[i]? with
    | some w =>
      match w.phase with
      | .notifying metadata pending =>
        if pending = ∅ then sys.setWriter i { w with phase := .finished (.ok metadata) } else sys
      | _ => sys
    | none => sys
  | .other answers call => { sys with board := (sys.board.serve crates answers call).2 }

/-- The system after some steps. -/
def run (crates : Crates) (steps : List Step) : System := steps.foldl (step crates) {}

end System

/-! ## What a board remembers -/

/-- What is remembered of a post for later requests. -/
def Post.identity (post : Post) : PostMetadata × PostRequest × PostBehavior :=
  (post.metadata, post.request, post.behavior)

namespace State

/-- What a board remembers of its posts. -/
def log (s : State) : List (PostMetadata × PostRequest × PostBehavior) := s.posts.map Post.identity

theorem length_log (s : State) : s.log.length = s.posts.length := length_map _

/-- A board remembers the same posts and requests. -/
def SameLog (s s' : State) : Prop := s'.log = s.log ∧ s'.requests = s.requests

theorem SameLog.refl (s : State) : SameLog s s := ⟨rfl, rfl⟩

variable {s : State}

theorem SameLog.trans {s' s'' : State} (h : SameLog s s') (h' : SameLog s' s'') :
    SameLog s s'' := ⟨h'.1.trans h.1, h'.2.trans h.2⟩

theorem sameLog_subscribe (s : State) (target : SubscriptionTarget) (caller : ThreadId) :
    SameLog s (s.subscribe target caller) := by
  rw [subscribe]
  split_ifs
  · exact .refl s
  · exact ⟨rfl, rfl⟩

variable {crates : Crates} {author : AgentPath} {now : Time}

theorem sameLog_insertChannel {s' : State} {name : Text} {description : Option Text}
    (h : s.insertChannel crates name description author now = .ok s') : SameLog s s' := by
  obtain ⟨-, -, h⟩ := bind_eq_ok.1 h
  split_ifs at h
  · cases h
  · cases h
    exact ⟨rfl, rfl⟩

variable {caller : ThreadId} {request : PostRequest} {behavior : PostBehavior}

theorem sameLog_place {id : Uuid} {result : State × Placement}
    (h : s.place crates caller request behavior author now id = .ok result) :
    SameLog s result.1 := by
  unfold place at h
  split at h
  · split_ifs at h
    · cases h
    · cases h
      exact .refl s
  · obtain ⟨s', hinsert, h⟩ := bind_eq_ok.1 h
    cases h
    split_ifs
    · exact (sameLog_insertChannel hinsert).trans (sameLog_subscribe _ _ _)
    · exact sameLog_insertChannel hinsert
  · obtain ⟨index, -, h⟩ := bind_eq_ok.1 h
    obtain ⟨post, -, h⟩ := bind_eq_ok.1 h
    cases h
    exact .refl s

theorem sameLog_tells {result : Except Error (Reply × State)}
    (h : ∀ reply s', result = .ok (reply, s') → SameLog s s') : SameLog s (s.tells result).2 := by
  cases result with
  | error e => exact .refl s
  | ok result => exact h result.1 result.2 rfl

/-- A call other than a post leaves the log alone. -/
theorem sameLog_serve (s : State) (crates : Crates) (answers : Answers) (call : Call) :
    SameLog s (s.serve crates answers call).2 := by
  cases call with
  | createChannel request =>
    refine sameLog_tells fun reply s' h => ?_
    obtain ⟨author, -, h⟩ := bind_eq_ok.1 h
    obtain ⟨now, -, h⟩ := bind_eq_ok.1 h
    obtain ⟨s₁, hinsert, h⟩ := bind_eq_ok.1 h
    have hsame : SameLog s₁ (if request.subscription = .subscribe then
        s₁.subscribe (.channel request.channelName) answers.caller else s₁) := by
      split_ifs
      · exact sameLog_subscribe _ _ _
      · exact .refl _
    dsimp only at h
    split at h
    · cases h
    · cases h
      exact (sameLog_insertChannel hinsert).trans hsame
  | upsertChannel request =>
    refine sameLog_tells fun reply s' h => ?_
    obtain ⟨-, -, h⟩ := bind_eq_ok.1 h
    obtain ⟨author, -, h⟩ := bind_eq_ok.1 h
    split_ifs at h
    · cases h
      exact ⟨rfl, rfl⟩
    · obtain ⟨now, -, h⟩ := bind_eq_ok.1 h
      obtain ⟨s₁, hinsert, h⟩ := bind_eq_ok.1 h
      cases h
      exact sameLog_insertChannel hinsert
  | setSubscription request =>
    refine sameLog_tells fun reply s' h => ?_
    obtain ⟨callerPath, -, h⟩ := bind_eq_ok.1 h
    obtain ⟨agent, -, h⟩ := bind_eq_ok.1 h
    obtain ⟨last, -, h⟩ := bind_eq_ok.1 h
    cases h
    exact ⟨rfl, rfl⟩
  | readPost request => exact .refl s
  | listChannels query => exact .refl s
  | listThreads query => exact .refl s
  | searchPosts query => exact .refl s
  | readThread request => exact .refl s

theorem identity_of_modify (posts : List Post) (i : ℕ) {change : Post → Post}
    (hchange : ∀ post, (change post).identity = post.identity) :
    (posts.modify i change).map Post.identity = posts.map Post.identity := by
  induction posts generalizing i with
  | nil => cases i <;> rfl
  | cons post posts ih =>
    cases i with
    | zero => rw [modify_zero_cons, map_cons, map_cons, hchange]
    | succ i => rw [modify_succ_cons, map_cons, map_cons, ih]

theorem sameLog_recordInThread (s : State) (index : ℕ) (post : Post) :
    SameLog s (s.recordInThread index post) := by
  unfold recordInThread
  split_ifs
  · exact .refl s
  · split
    · exact .refl s
    · exact ⟨identity_of_modify _ _ fun post => rfl, rfl⟩

theorem log_indexPost (s : State) (caller : ThreadId) (post : Post) :
    (s.indexPost caller post).log = s.log ++ [post.identity] ∧
      (s.indexPost caller post).requests =
        Function.update s.requests (caller, post.request.requestId) (some s.posts.length) := by
  have hthread := sameLog_recordInThread ((s.pushPost caller post).recordInChannel s.posts.length post)
    s.posts.length post
  rw [indexPost, hthread.1, hthread.2]
  refine ⟨?_, rfl⟩
  change (s.posts ++ [post]).map Post.identity = _
  rw [map_append]
  rfl

/-- A stored post is the last of the log, and its request leads to it. -/
theorem storePost_spec {recipients : Finset ThreadId} {id : Uuid}
    {result : State × Post × Finset ThreadId}
    (h : s.storePost crates caller request behavior author recipients now id = .ok result) :
    result.1.log = s.log ++ [(result.2.1.metadata, request, behavior)] ∧
      result.1.requests =
        Function.update s.requests (caller, request.requestId) (some s.posts.length) := by
  obtain ⟨⟨s', placement⟩, hplace, h⟩ := bind_eq_ok.1 h
  obtain ⟨hlog, hrequests⟩ := sameLog_place hplace
  cases h
  have hlength : s'.posts.length = s.posts.length := by
    rw [← length_log, ← length_log, hlog]
  set post : Post := {
    metadata := {
      messageId := id
      channelName := placement.channelName
      author
      threadId := placement.root
      createdAt := now }
    search := crates.caseFold request.text
    nChars := request.text.length
    request
    behavior }
  have hindex := log_indexPost s' caller post
  have hsame : SameLog (s'.indexPost caller post)
      (if behavior = .discussion then
        (s'.indexPost caller post).subscribe (.thread placement.root) caller
      else s'.indexPost caller post) := by
    split_ifs
    · exact sameLog_subscribe _ _ _
    · exact .refl _
  rw [hsame.1, hsame.2, hindex.1, hindex.2, hlog, hrequests, hlength]
  exact ⟨rfl, rfl⟩

/-- An earlier post is found only for the same request. -/
theorem existingPost_eq_some {metadata : PostMetadata}
    (h : s.existingPost caller request behavior = .ok (some metadata)) :
    ∃ index, s.requests (caller, request.requestId) = some index ∧
      s.log[index]? = some (metadata, request, behavior) := by
  unfold existingPost at h
  split at h
  · cases h
  · rename_i index hindex
    obtain ⟨post, hpost, h⟩ := bind_eq_ok.1 h
    split_ifs at h with hsame
    · cases h
    · cases h
      rw [not_or, not_not, not_not] at hsame
      refine ⟨index, hindex, ?_⟩
      rw [State.post] at hpost
      split at hpost
      · cases hpost
      · rename_i post' hget
        cases hpost
        rw [log, getElem?_map, hget, map_some, Post.identity, hsame.1, hsame.2]

theorem existingPost_eq_none (h : s.existingPost caller request behavior = .ok none) :
    s.requests (caller, request.requestId) = none := by
  unfold existingPost at h
  split at h
  · rename_i hnone
    exact hnone
  · obtain ⟨post, -, h⟩ := bind_eq_ok.1 h
    split_ifs at h
    · cases h
    · cases h

end State

/-! ## The invariant -/

/-- What holds of a writer: if it stored a post, the board has it for its request; if it succeeded,
the board has its request with what it returned; and whoever it will notify has not been
notified. -/
structure Writer.Ok (w : Writer) (sys : System) : Prop where
  stored : ∀ index, w.stored = some index → sys.board.requests w.key = some index ∧
    ∃ metadata, sys.board.log[index]? = some (metadata, w.request, w.behavior) ∧
      ((∃ pending, w.phase = .notifying metadata pending) ∨ w.phase = .finished (.ok metadata))
  returned : ∀ metadata, w.phase = .finished (.ok metadata) →
    ∃ index, sys.board.requests w.key = some index ∧
      sys.board.log[index]? = some (metadata, w.request, w.behavior)
  notifying : ∀ metadata pending, w.phase = .notifying metadata pending →
    ∃ index, w.stored = some index ∧ ∀ recipient ∈ pending, (index, recipient) ∉ sys.notices

/-- **The invariant of a system.** -/
structure Consistent (sys : System) : Prop where
  writers : ∀ (i : ℕ) (w : Writer), sys.writers[i]? = some w → w.Ok sys
  /-- No two writers stored one post. -/
  stored_inj : ∀ (i j : ℕ) (w w' : Writer) (index : ℕ), sys.writers[i]? = some w →
    sys.writers[j]? = some w' → w.stored = some index → w'.stored = some index → i = j
  /-- Every post was stored by a writer. -/
  stored_surj : ∀ index < sys.board.posts.length, ∃ (i : ℕ) (w : Writer),
    sys.writers[i]? = some w ∧ w.stored = some index
  notices_lt : ∀ notice ∈ sys.notices, notice.1 < sys.board.posts.length
  notices_nodup : sys.notices.Nodup

theorem consistent_empty : Consistent {} where
  writers _ _ h := by cases h
  stored_inj _ _ _ _ _ h := by cases h
  stored_surj index h := absurd h (Nat.not_lt_zero index)
  notices_lt _ h := by cases h
  notices_nodup := nodup_nil

variable {w : Writer} {sys : System}

/-- What holds of a writer stays when the board remembers more. -/
theorem Writer.Ok.mono {sys' : System} (h : w.Ok sys)
    (hrequests : ∀ index, sys.board.requests w.key = some index →
      sys'.board.requests w.key = some index)
    (hlog : ∀ (index : ℕ) entry, sys.board.log[index]? = some entry → sys'.board.log[index]? = some entry)
    (hnotices : ∀ index recipient, w.stored = some index → (index, recipient) ∈ sys'.notices →
      (index, recipient) ∈ sys.notices) : w.Ok sys' where
  stored index hindex := by
    obtain ⟨hrequest, metadata, hentry, hphase⟩ := h.stored index hindex
    exact ⟨hrequests index hrequest, metadata, hlog _ _ hentry, hphase⟩
  returned metadata hphase := by
    obtain ⟨index, hrequest, hentry⟩ := h.returned metadata hphase
    exact ⟨index, hrequests index hrequest, hlog _ _ hentry⟩
  notifying metadata pending hphase := by
    obtain ⟨index, hstored, hpending⟩ := h.notifying metadata pending hphase
    exact ⟨index, hstored, fun recipient hrecipient hnotice =>
      hpending recipient hrecipient (hnotices index recipient hstored hnotice)⟩

variable {i : ℕ}

/-- A writer goes on: the others are as they were, and it stored what nobody else has stored. -/
theorem Consistent.update (h : Consistent sys) {sys' : System} {w' : Writer}
    (hw : sys.writers[i]? = some w) (hwriters : sys'.writers = sys.writers.set i w') (hok : w'.Ok sys')
    (hothers : ∀ j v, i ≠ j → sys.writers[j]? = some v →
      v.Ok sys' ∧ ∀ index, w'.stored = some index → v.stored ≠ some index)
    (hsurj : ∀ index < sys'.board.posts.length, w'.stored = some index ∨
      index < sys.board.posts.length ∧ w.stored ≠ some index)
    (hlt : ∀ notice ∈ sys'.notices, notice.1 < sys'.board.posts.length)
    (hnodup : sys'.notices.Nodup) : Consistent sys' := by
  have hself : sys'.writers[i]? = some w' := by
    rw [hwriters, List.getElem?_set_self (List.getElem?_eq_some_iff.1 hw).1]
  have hother : ∀ j, i ≠ j → sys'.writers[j]? = sys.writers[j]? := by
    intro j hj
    rw [hwriters, getElem?_set_ne hj]
  have hnew : ∀ k v v' index, sys'.writers[i]? = some v → v.stored = some index → i ≠ k →
      sys'.writers[k]? = some v' → v'.stored ≠ some index := by
    intro k v v' index hv hs hk hv'
    rw [hself] at hv
    rw [hother k hk] at hv'
    exact (hothers k v' hk hv').2 index (some.inj hv ▸ hs)
  refine ⟨fun j v hv => ?_, fun j k v v' index hv hv' hs hs' => ?_, fun index hindex => ?_, hlt, hnodup⟩
  · by_cases hj : i = j
    · rw [← hj, hself] at hv
      exact some.inj hv ▸ hok
    · rw [hother j hj] at hv
      exact (hothers j v hj hv).1
  · by_cases hj : i = j
    · subst hj
      by_contra hk
      exact hnew k v v' index hv hs hk hv' hs'
    · by_cases hk : i = k
      · subst hk
        exact absurd hs (hnew j v' v index hv' hs' hj hv)
      · rw [hother j hj] at hv
        rw [hother k hk] at hv'
        exact h.stored_inj j k v v' index hv hv' hs hs'
  · rcases hsurj index hindex with hs | ⟨hold, hne⟩
    · exact ⟨i, w', hself, hs⟩
    · obtain ⟨j, v, hv, hs⟩ := h.stored_surj index hold
      have hj : i ≠ j := by
        rintro rfl
        exact hne (some.inj (hv.symm.trans hw) ▸ hs)
      exact ⟨j, v, (hother j hj).trans hv, hs⟩

/-- One writer goes on, and the board stays as it is. -/
theorem Consistent.goOn (h : Consistent sys) {sys' : System} {w' : Writer}
    (hw : sys.writers[i]? = some w) (hwriters : sys'.writers = sys.writers.set i w')
    (hboard : sys'.board = sys.board) (hstored : w'.stored = w.stored) (hok : w'.Ok sys')
    (hothers : ∀ j v, i ≠ j → sys.writers[j]? = some v → v.Ok sys')
    (hlt : ∀ notice ∈ sys'.notices, notice.1 < sys.board.posts.length)
    (hnodup : sys'.notices.Nodup) : Consistent sys' := by
  refine h.update hw hwriters hok (fun j v hj hv => ⟨hothers j v hj hv, fun index hs hs' => hj ?_⟩)
    (fun index hindex => ?_) (hboard ▸ hlt) hnodup
  · exact h.stored_inj i j w v index hw hv (hstored ▸ hs) hs'
  · rw [hboard] at hindex
    rw [hstored]
    exact or_iff_not_imp_left.2 fun hs => ⟨hindex, hs⟩

theorem Consistent.setWriter (h : Consistent sys) {w' : Writer} (hw : sys.writers[i]? = some w)
    (hstored : w'.stored = w.stored) (hok : w'.Ok sys) : Consistent (sys.setWriter i w') := by
  refine h.goOn hw rfl rfl hstored ⟨hok.stored, hok.returned, hok.notifying⟩ (fun j v _ hv => ?_)
    h.notices_lt h.notices_nodup
  have hv := h.writers j v hv
  exact ⟨hv.stored, hv.returned, hv.notifying⟩

/-- A writer that has neither stored nor returned anything. -/
theorem Writer.ok_of_silent (hstored : w.stored = none)
    (hreturned : ∀ metadata, w.phase ≠ .finished (.ok metadata))
    (hnotifying : ∀ metadata pending, w.phase ≠ .notifying metadata pending) : w.Ok sys where
  stored index hindex := by
    rw [hstored] at hindex
    cases hindex
  returned metadata hphase := absurd hphase (hreturned metadata)
  notifying metadata pending hphase := absurd hphase (hnotifying metadata pending)

variable {metadata : PostMetadata} {index : ℕ}

theorem Writer.ok_of_existing (hstored : w.stored = none)
    (hphase : w.phase = .finished (.ok metadata)) (hrequest : sys.board.requests w.key = some index)
    (hlog : sys.board.log[index]? = some (metadata, w.request, w.behavior)) : w.Ok sys where
  stored index' hindex := by
    rw [hstored] at hindex
    cases hindex
  returned metadata' hphase' := by
    rw [hphase] at hphase'
    cases hphase'
    exact ⟨index, hrequest, hlog⟩
  notifying metadata' pending hphase' := by
    rw [hphase] at hphase'
    cases hphase'

/-- Only a writer that stored something notifies or returns it. -/
theorem Writer.Ok.stored_eq_none (h : w.Ok sys)
    (hreturned : ∀ metadata, w.phase ≠ .finished (.ok metadata))
    (hnotifying : ∀ metadata pending, w.phase ≠ .notifying metadata pending) : w.stored = none := by
  by_contra hsome
  obtain ⟨index, hindex⟩ := ne_none_iff_exists'.1 hsome
  obtain ⟨-, metadata, -, ⟨pending, hphase⟩ | hphase⟩ := h.stored index hindex
  · exact hnotifying metadata pending hphase
  · exact hreturned metadata hphase

/-- What a writer that notifies has stored is what it will return. -/
theorem Writer.Ok.entry_of_notifying (h : w.Ok sys) {pending : Finset ThreadId}
    (hphase : w.phase = .notifying metadata pending) (hindex : w.stored = some index) :
    sys.board.requests w.key = some index ∧
      sys.board.log[index]? = some (metadata, w.request, w.behavior) := by
  obtain ⟨hrequest, metadata', hentry, hphase'⟩ := h.stored index hindex
  rw [hphase] at hphase'
  obtain ⟨_, heq⟩ | heq := hphase'
  · cases heq
    exact ⟨hrequest, hentry⟩
  · cases heq

/-- A new call is consistent with any board. -/
theorem Consistent.addWriter (h : Consistent sys) (hphase : w.phase = .started)
    (hstored : w.stored = none) :
    Consistent { sys with writers := sys.writers ++ [w] } := by
  have hok : w.Ok sys := Writer.ok_of_silent hstored (fun _ => hphase.trans_ne nofun)
    (fun _ _ => hphase.trans_ne nofun)
  have hget : ∀ (j : ℕ) (v : Writer), (sys.writers ++ [w])[j]? = some v →
      v = w ∨ sys.writers[j]? = some v := by
    intro j v hv
    rcases lt_or_ge j sys.writers.length with hlt | hge
    · rw [getElem?_append_left hlt] at hv
      exact .inr hv
    · rw [getElem?_append_right hge] at hv
      exact .inl (mem_singleton.1 (mem_of_getElem? hv))
  have hold : ∀ (j : ℕ) (v : Writer) (index : ℕ), (sys.writers ++ [w])[j]? = some v →
      v.stored = some index → sys.writers[j]? = some v := by
    intro j v index hv hindex
    rcases hget j v hv with rfl | hv
    · rw [hstored] at hindex
      cases hindex
    · exact hv
  refine ⟨fun j v hv => ?_, fun j k v v' index hv hv' hs hs' => ?_, fun index hindex => ?_,
    h.notices_lt, h.notices_nodup⟩
  · rcases hget j v hv with rfl | hv
    · exact ⟨hok.stored, hok.returned, hok.notifying⟩
    · exact ⟨(h.writers j v hv).stored, (h.writers j v hv).returned, (h.writers j v hv).notifying⟩
  · exact h.stored_inj j k v v' index (hold j v index hv hs) (hold k v' index hv' hs') hs hs'
  · obtain ⟨j, v, hv, hs⟩ := h.stored_surj index hindex
    have hlt := (List.getElem?_eq_some_iff.1 hv).1
    exact ⟨j, v, (getElem?_append_left hlt).trans hv, hs⟩

/-- A post is stored: nobody has its request, and it is remembered behind the others. -/
theorem Consistent.stored (h : Consistent sys) (hw : sys.writers[i]? = some w)
    (hnone : w.stored = none) (hnew : sys.board.requests w.key = none) {board : State}
    (hlog : board.log = sys.board.log ++ [(metadata, w.request, w.behavior)])
    (hrequests : board.requests =
      Function.update sys.board.requests w.key (some sys.board.posts.length))
    (pending : Finset ThreadId) :
    Consistent { sys with
      board
      writers := sys.writers.set i { w with
        phase := .notifying metadata pending
        stored := some sys.board.posts.length } } := by
  have hlength : board.posts.length = sys.board.posts.length + 1 := by
    rw [← State.length_log, hlog, length_append, State.length_log]
    rfl
  have hlog_old : ∀ (index : ℕ) entry, sys.board.log[index]? = some entry →
      board.log[index]? = some entry := by
    intro index entry hentry
    rw [hlog, List.getElem?_append_left (List.getElem?_eq_some_iff.1 hentry).1]
    exact hentry
  have hlog_new : board.log[sys.board.posts.length]? = some (metadata, w.request, w.behavior) := by
    rw [hlog, ← State.length_log, getElem?_concat_length]
  -- every request that the board had is still there
  have hrequests_old : ∀ key index, sys.board.requests key = some index →
      board.requests key = some index := by
    intro key index hindex
    rw [hrequests, Function.update_apply, if_neg]
    · exact hindex
    · rintro rfl
      rw [hnew] at hindex
      cases hindex
  have hstored_lt : ∀ (j : ℕ) (v : Writer) (index : ℕ), sys.writers[j]? = some v →
      v.stored = some index → index < sys.board.posts.length := by
    intro j v index hv hindex
    obtain ⟨-, _, hentry, -⟩ := (h.writers j v hv).stored index hindex
    rw [← State.length_log]
    exact (List.getElem?_eq_some_iff.1 hentry).1
  refine h.update hw rfl ⟨fun index hindex => ?_, fun _ hphase => (nomatch hphase), fun _ _ hphase => ?_⟩
    (fun j v hj hv => ⟨?_, fun index hs hs' => ?_⟩) (fun index hindex => ?_) (fun notice hnotice => ?_)
    h.notices_nodup
  · obtain rfl := some.inj hindex
    refine ⟨?_, metadata, hlog_new, .inl ⟨pending, rfl⟩⟩
    change board.requests w.key = _
    rw [hrequests, Function.update_self]
  · refine ⟨sys.board.posts.length, rfl, fun recipient _ hnotice => ?_⟩
    exact absurd (h.notices_lt _ hnotice) (lt_irrefl _)
  · exact (h.writers j v hv).mono (hrequests_old v.key) hlog_old fun _ _ _ hnotice => hnotice
  · obtain rfl := some.inj hs
    exact absurd (hstored_lt j v _ hv hs') (lt_irrefl _)
  · rcases Nat.lt_succ_iff_lt_or_eq.1 (hlength ▸ hindex) with hindex | rfl
    · exact .inr ⟨hindex, by rw [hnone]; exact nofun⟩
    · exact .inl rfl
  · change notice.1 < board.posts.length
    rw [hlength]
    exact (h.notices_lt notice hnotice).trans (Nat.lt_succ_self _)

/-- A recipient is notified: it was not before, and will not be again. -/
theorem Consistent.notified (h : Consistent sys) (hw : sys.writers[i]? = some w)
    {pending : Finset ThreadId} (hphase : w.phase = .notifying metadata pending)
    (hindex : w.stored = some index) {recipient : ThreadId} (hrecipient : recipient ∈ pending) :
    Consistent { sys with
      writers := sys.writers.set i { w with phase := .notifying metadata (pending.erase recipient) }
      notices := (index, recipient) :: sys.notices } := by
  have hok := h.writers i w hw
  obtain ⟨hrequest, hentry⟩ := hok.entry_of_notifying hphase hindex
  have hpending : ∀ recipient ∈ pending, (index, recipient) ∉ sys.notices := by
    obtain ⟨index', hindex', hnone⟩ := hok.notifying metadata pending hphase
    rwa [some.inj (hindex'.symm.trans hindex)] at hnone
  have hw' : Writer.Ok { w with phase := .notifying metadata (pending.erase recipient) }
      { sys with notices := (index, recipient) :: sys.notices } := by
    refine ⟨fun index' hindex' => ?_, fun _ heq => (nomatch heq), fun _ _ heq => ?_⟩
    · obtain rfl := some.inj (hindex.symm.trans hindex')
      exact ⟨hrequest, metadata, hentry, .inl ⟨_, rfl⟩⟩
    · cases heq
      refine ⟨index, hindex, fun recipient' hmem hnotice => ?_⟩
      obtain ⟨hne, hmem⟩ := Finset.mem_erase.1 hmem
      rcases mem_cons.1 hnotice with heq | hnotice
      · exact hne (Prod.mk.inj heq).2
      · exact hpending recipient' hmem hnotice
  refine h.goOn hw rfl rfl rfl ⟨hw'.stored, hw'.returned, hw'.notifying⟩ (fun j v hj hv => ?_)
    (fun notice hnotice => ?_) (nodup_cons.2 ⟨hpending recipient hrecipient, h.notices_nodup⟩)
  · refine (h.writers j v hv).mono (fun _ hrequest => hrequest) (fun _ _ hentry => hentry) ?_
    intro index' recipient' hindex' hnotice
    rcases mem_cons.1 hnotice with heq | hnotice
    · cases heq
      exact absurd (h.stored_inj i j w v index hw hv hindex hindex') hj
    · exact hnotice
  · rcases mem_cons.1 hnotice with rfl | hnotice
    · rw [← State.length_log]
      exact (List.getElem?_eq_some_iff.1 hentry).1
    · exact h.notices_lt notice hnotice

/-! ## Steps and runs -/

theorem Consistent.begin (h : Consistent sys) (hw : sys.writers[i]? = some w)
    (hphase : w.phase = .started) (agentPath : Option AgentPath) :
    Consistent (sys.setWriter i (w.begin agentPath)) := by
  have hnone : w.stored = none := (h.writers i w hw).stored_eq_none
    (fun _ => hphase.trans_ne nofun) (fun _ _ => hphase.trans_ne nofun)
  refine h.setWriter hw rfl (Writer.ok_of_silent hnone (fun _ => ?_) (fun _ _ => ?_))
  · rw [Writer.begin]
    split <;> exact nofun
  · rw [Writer.begin]
    split <;> exact nofun

variable {author : AgentPath}

/-- The lock section that looks for an earlier post. -/
theorem Consistent.look (h : Consistent sys) (hw : sys.writers[i]? = some w)
    (hphase : w.phase = .known author) :
    Consistent (sys.setWriter i (w.look sys.board author)) := by
  have hnone : w.stored = none := (h.writers i w hw).stored_eq_none
    (fun _ => hphase.trans_ne nofun) (fun _ _ => hphase.trans_ne nofun)
  refine h.setWriter hw rfl ?_
  rw [Writer.look]
  split
  · exact Writer.ok_of_silent hnone (fun _ => nofun) (fun _ _ => nofun)
  · rename_i metadata hexisting
    obtain ⟨index, hrequest, hentry⟩ := State.existingPost_eq_some hexisting
    exact Writer.ok_of_existing hnone rfl hrequest hentry
  · exact Writer.ok_of_silent hnone (fun _ => nofun) (fun _ _ => nofun)

theorem Consistent.resolve (h : Consistent sys) (hw : sys.writers[i]? = some w)
    (hphase : w.phase = .unseen author) (answers : Answers) :
    Consistent (sys.setWriter i (w.resolve answers author)) := by
  have hnone : w.stored = none := (h.writers i w hw).stored_eq_none
    (fun _ => hphase.trans_ne nofun) (fun _ _ => hphase.trans_ne nofun)
  refine h.setWriter hw rfl (Writer.ok_of_silent hnone (fun _ => ?_) (fun _ _ => ?_))
  · rw [Writer.resolve]
    split <;> exact nofun
  · rw [Writer.resolve]
    split <;> exact nofun

/-- What the second lock section does: it finds the request, or it stores the post. -/
theorem State.writeSection_cases {s : State} {crates : Crates} {caller : ThreadId}
    {request : PostRequest} {behavior : PostBehavior} {recipients : Finset ThreadId} {now : Time}
    {id : Uuid} {stored : Option (State × Finset ThreadId)}
    (h : s.writeSection crates caller request behavior author recipients now id =
      .ok (metadata, stored)) :
    (stored = none ∧ s.existingPost caller request behavior = .ok (some metadata)) ∨
      ∃ board pending, stored = some (board, pending) ∧
        s.requests (caller, request.requestId) = none ∧
        board.log = s.log ++ [(metadata, request, behavior)] ∧
        board.requests =
          Function.update s.requests (caller, request.requestId) (some s.posts.length) := by
  obtain ⟨existing, hexisting, h⟩ := bind_eq_ok.1 h
  cases existing with
  | some found =>
    cases h
    exact .inl ⟨rfl, hexisting⟩
  | none =>
    obtain ⟨⟨board, post, pending⟩, hstore, h⟩ := bind_eq_ok.1 h
    cases h
    obtain ⟨hlog, hrequests⟩ := storePost_spec hstore
    exact .inr ⟨board, pending, rfl, existingPost_eq_none hexisting, hlog, hrequests⟩

/-- The lock section that stores a post. -/
theorem Consistent.store (h : Consistent sys) {crates : Crates} (hw : sys.writers[i]? = some w)
    {recipients : Finset ThreadId} {now : Time} (hphase : w.phase = .ready author recipients now)
    (id : Uuid) : Consistent (sys.store crates i w author recipients now id) := by
  have hnone : w.stored = none := (h.writers i w hw).stored_eq_none
    (fun _ => hphase.trans_ne nofun) (fun _ _ => hphase.trans_ne nofun)
  rw [System.store]
  split
  · exact h.setWriter hw rfl (Writer.ok_of_silent hnone (fun _ => nofun) (fun _ _ => nofun))
  · rename_i metadata hsection
    obtain ⟨-, hexisting⟩ | ⟨board, pending, heq, -⟩ := State.writeSection_cases hsection
    · obtain ⟨index, hrequest, hentry⟩ := State.existingPost_eq_some hexisting
      exact h.setWriter hw rfl (Writer.ok_of_existing hnone rfl hrequest hentry)
    · cases heq
  · rename_i metadata board pending hsection
    obtain ⟨heq, -⟩ | ⟨board', pending', heq, hnew, hlog, hrequests⟩ :=
      State.writeSection_cases hsection
    · cases heq
    · cases heq
      exact h.stored hw hnone hnew hlog hrequests pending

/-- A call whose notices are sent returns. -/
theorem Consistent.finish (h : Consistent sys) (hw : sys.writers[i]? = some w)
    {pending : Finset ThreadId} (hphase : w.phase = .notifying metadata pending) :
    Consistent (sys.setWriter i { w with phase := .finished (.ok metadata) }) := by
  have hok := h.writers i w hw
  obtain ⟨index, hindex, -⟩ := hok.notifying metadata pending hphase
  obtain ⟨hrequest, hentry⟩ := hok.entry_of_notifying hphase hindex
  refine h.setWriter hw rfl ⟨fun index' hindex' => ?_, fun _ heq => ?_, nofun⟩
  · obtain rfl := some.inj (hindex.symm.trans hindex')
    exact ⟨hrequest, metadata, hentry, .inr rfl⟩
  · cases heq
    exact ⟨index, hrequest, hentry⟩

/-- Only the log of the board matters. -/
theorem Consistent.of_sameLog (h : Consistent sys) {board : State}
    (hsame : State.SameLog sys.board board) : Consistent { sys with board } := by
  have hlength : board.posts.length = sys.board.posts.length := by
    rw [← State.length_log, ← State.length_log, hsame.1]
  refine ⟨fun i w hw => ?_, h.stored_inj, fun index hindex => ?_, fun notice hnotice => ?_,
    h.notices_nodup⟩
  · refine (h.writers i w hw).mono (fun index hrequest => ?_) (fun index entry hentry => ?_)
      fun _ _ _ hnotice => hnotice
    · change board.requests w.key = some index
      rw [hsame.2]
      exact hrequest
    · change board.log[index]? = some entry
      rw [hsame.1]
      exact hentry
  · exact h.stored_surj index (hindex.trans_eq hlength)
  · exact (h.notices_lt notice hnotice).trans_eq hlength.symm

/-- **One step.** -/
theorem consistent_step (crates : Crates) (h : Consistent sys) (step : Step) :
    Consistent (sys.step crates step) := by
  unfold System.step
  cases step with
  | post caller request => exact h.addWriter rfl rfl
  | append caller request => exact h.addWriter rfl rfl
  | begin i agentPath =>
    dsimp only
    split
    · rename_i w hw
      split
      · rename_i hphase
        exact h.begin hw hphase agentPath
      · exact h
    · exact h
  | look i =>
    dsimp only
    split
    · rename_i w hw
      split
      · rename_i author hphase
        exact h.look hw hphase
      · exact h
    · exact h
  | resolve i answers =>
    dsimp only
    split
    · rename_i w hw
      split
      · rename_i author hphase
        exact h.resolve hw hphase answers
      · exact h
    · exact h
  | store i id =>
    dsimp only
    split
    · rename_i w hw
      split
      · rename_i author recipients now hphase
        exact h.store hw hphase id
      · exact h
    · exact h
  | notify i recipient =>
    dsimp only
    split
    · rename_i w hw
      split
      · rename_i metadata pending index hphase hindex
        split_ifs with hrecipient
        · exact h.notified hw hphase hindex hrecipient
        · exact h
      · exact h
    · exact h
  | finish i =>
    dsimp only
    split
    · rename_i w hw
      split
      · rename_i metadata pending hphase
        split_ifs
        · exact h.finish hw hphase
        · exact h
      · exact h
    · exact h
  | other answers call => exact h.of_sameLog (State.sameLog_serve _ _ answers call)

/-- Consistency holds after every run. -/
theorem consistent_run (crates : Crates) (steps : List Step) :
    Consistent (System.run crates steps) := by
  rw [System.run]
  induction steps using List.reverseRecOn with
  | nil => exact consistent_empty
  | append_singleton steps step ih =>
    rw [foldl_append]
    exact consistent_step crates ih step

theorem Writer.result_eq_some {result : Except Error PostMetadata} :
    w.result = some result ↔ w.phase = .finished result := by
  rw [Writer.result]
  cases w.phase with
  | finished r => rw [some_inj, Phase.finished.injEq]
  | _ => exact iff_of_false nofun nofun

/-- Two entries of the log for one request are one entry. -/
theorem entry_eq_of_key {s : State} {w' : Writer} (hkey : w.key = w'.key) {index' : ℕ}
    {metadata' : PostMetadata} (hrequest : s.requests w.key = some index)
    (hrequest' : s.requests w'.key = some index')
    (hentry : s.log[index]? = some (metadata, w.request, w.behavior))
    (hentry' : s.log[index']? = some (metadata', w'.request, w'.behavior)) :
    index = index' ∧ metadata = metadata' ∧ w.request = w'.request ∧ w.behavior = w'.behavior := by
  rw [hkey] at hrequest
  obtain rfl := some.inj (hrequest.symm.trans hrequest')
  have hpair := some.inj (hentry.symm.trans hentry')
  rw [Prod.mk.injEq, Prod.mk.injEq] at hpair
  exact ⟨rfl, hpair⟩

/-- **At most once.**  However the lock sections of concurrent posts and appends follow each other:
every stored post was stored by one call; of the calls with one caller and request id at most one
stores a post; those that succeed return the same metadata, and have the same payload and the same
behavior; if one of them stored a post and another has a different payload or behavior, the other
stores nothing and can only fail; and nobody is notified twice of one post. -/
theorem written_at_most_once (crates : Crates) (steps : List Step) :
    (∀ index < (System.run crates steps).board.posts.length, ∃! i : ℕ, ∃ w : Writer,
      (System.run crates steps).writers[i]? = some w ∧ w.stored = some index) ∧
    (∀ (i j : ℕ) (w w' : Writer), (System.run crates steps).writers[i]? = some w →
      (System.run crates steps).writers[j]? = some w' → w.key = w'.key →
      (w.stored.isSome → w'.stored.isSome → i = j) ∧
      (∀ metadata metadata', w.result = some (.ok metadata) → w'.result = some (.ok metadata') →
        metadata = metadata' ∧ w.request = w'.request ∧ w.behavior = w'.behavior) ∧
      (w.stored.isSome → w.request ≠ w'.request ∨ w.behavior ≠ w'.behavior →
        w'.stored = none ∧ ∀ metadata, w'.result ≠ some (.ok metadata)) ∧
      (∀ e, w.result = some (.error e) → w.stored = none)) ∧
    (System.run crates steps).notices.Nodup := by
  have h := consistent_run crates steps
  refine ⟨fun index hindex => ?_, fun i j w w' hw hw' hkey => ⟨?_, ?_, ?_, ?_⟩, h.notices_nodup⟩
  · obtain ⟨i, w, hw, hstored⟩ := h.stored_surj index hindex
    refine ⟨i, ⟨w, hw, hstored⟩, ?_⟩
    rintro j ⟨w', hw', hstored'⟩
    exact h.stored_inj j i w' w index hw' hw hstored' hstored
  · intro hsome hsome'
    obtain ⟨index, hindex⟩ := isSome_iff_exists.1 hsome
    obtain ⟨index', hindex'⟩ := isSome_iff_exists.1 hsome'
    obtain ⟨hrequest, metadata, hentry, -⟩ := (h.writers i w hw).stored index hindex
    obtain ⟨hrequest', metadata', hentry', -⟩ := (h.writers j w' hw').stored index' hindex'
    obtain ⟨rfl, -⟩ := entry_eq_of_key hkey hrequest hrequest' hentry hentry'
    exact h.stored_inj i j w w' index hw hw' hindex hindex'
  · intro metadata metadata' hresult hresult'
    obtain ⟨index, hrequest, hentry⟩ :=
      (h.writers i w hw).returned metadata (Writer.result_eq_some.1 hresult)
    obtain ⟨index', hrequest', hentry'⟩ :=
      (h.writers j w' hw').returned metadata' (Writer.result_eq_some.1 hresult')
    exact (entry_eq_of_key hkey hrequest hrequest' hentry hentry').2
  · intro hsome hne
    obtain ⟨index, hindex⟩ := isSome_iff_exists.1 hsome
    obtain ⟨hrequest, metadata, hentry, -⟩ := (h.writers i w hw).stored index hindex
    have hother : ∀ {index' : ℕ} {metadata' : PostMetadata},
        (System.run crates steps).board.requests w'.key = some index' →
        (System.run crates steps).board.log[index']? =
          some (metadata', w'.request, w'.behavior) → False := by
      intro index' metadata' hrequest' hentry'
      obtain ⟨-, -, hsame⟩ := entry_eq_of_key hkey hrequest hrequest' hentry hentry'
      exact hne.elim (fun hne => hne hsame.1) (fun hne => hne hsame.2)
    constructor
    · by_contra hsome'
      obtain ⟨index', hindex'⟩ := ne_none_iff_exists'.1 hsome'
      obtain ⟨hrequest', metadata', hentry', -⟩ := (h.writers j w' hw').stored index' hindex'
      exact hother hrequest' hentry'
    · intro metadata' hresult'
      obtain ⟨index', hrequest', hentry'⟩ :=
        (h.writers j w' hw').returned metadata' (Writer.result_eq_some.1 hresult')
      exact hother hrequest' hentry'
  · intro e hresult
    have hphase := Writer.result_eq_some.1 hresult
    exact (h.writers i w hw).stored_eq_none (fun _ => by rw [hphase]; exact nofun)
      (fun _ _ => by rw [hphase]; exact nofun)

end Board.InMemory
