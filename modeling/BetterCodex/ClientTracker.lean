/-
# The clients of remote control

The tracker gives each stream of a client a connection to the app server.  An initialize
message opens the connection; later messages go to it, each sequence id once.
-/
import BetterCodex.OutboundBuffer

namespace RemoteControl

open RustStr List SortedMap Option

/-! ## Messages and events -/

/-- `JSONRPCMessage`; a request is known by its method. -/
inductive JSONRPCMessage (Payload : Type) where
  | request (method : Text) (payload : Payload)
  | notification (payload : Payload)
  | response (payload : Payload)
  | error (payload : Payload)
  deriving DecidableEq, Repr

variable {Payload : Type}

/-- `remote_control_message_starts_connection`. -/
def JSONRPCMessage.startsConnection : JSONRPCMessage Payload → Bool
  | .request method _ => method = "initialize".toList
  | _ => false

/-- `TransportEvent`, as far as the tracker sends it. -/
inductive TransportEvent (Payload : Type) where
  | connectionOpened (connectionId : ℕ)
  | connectionClosed (connectionId : ℕ)
  | incomingMessage (connectionId : ℕ) (message : JSONRPCMessage Payload)
  deriving DecidableEq, Repr

/-- `Stopped`: an event could not be sent to the app server. -/
inductive Stopped where
  | stopped
  deriving DecidableEq, Repr

/-! ## The tracker -/

structure ClientState where
  connectionId : ℕ
  lastActivityAt : ℕ
  lastInboundSeqId : Option ℕ
  deriving DecidableEq, Repr

structure ClientTracker where
  clients : List (StreamKey × ClientState) := []
  legacyStreamIds : List (Text × Text) := []
  deriving DecidableEq

/-- What the tracker gets from around it while it handles a message: the time, the next
connection id, a random stream id, and which events the app server takes. -/
structure Surroundings where
  now : ℕ
  connectionId : ℕ
  randomStreamId : Text
  closedTaken : Bool
  openedTaken : Bool
  incomingTaken : Bool
  deriving DecidableEq, Repr

/-- What an operation of the tracker leaves and sends. -/
structure Handled (Payload : Type) where
  tracker : ClientTracker
  sent : List (TransportEvent Payload) := []
  pongs : List (StreamKey × PongStatus) := []
  result : Except Stopped Unit := .ok ()

def clientIdleTimeout : ℕ := 10 * 60

namespace ClientTracker

variable (t : ClientTracker) (key : StreamKey)

/-- `remove_client`, for a client that is there. -/
def removeClient : ClientTracker where
  clients := erase key t.clients
  legacyStreamIds :=
    if get (ofLex key).1 t.legacyStreamIds = some (ofLex key).2 then
      erase (ofLex key).1 t.legacyStreamIds
    else t.legacyStreamIds

def closeClient (taken : Bool) : Handled Payload :=
  match get key t.clients with
  | none => { tracker := t }
  | some client =>
    if taken then
      { tracker := t.removeClient key, sent := [.connectionClosed client.connectionId] }
    else
      { tracker := t.removeClient key, result := .error .stopped }

/-- The client was active. -/
def touch (client : ClientState) (now : ℕ) : ClientTracker :=
  { t with clients := insert key { client with lastActivityAt := now } t.clients }

def recordInboundMessageDelivery (seqId : Option ℕ) :
    ClientTracker :=
  match seqId, get key t.clients with
  | some seqId, some client =>
    { t with clients :=
        insert key { client with lastInboundSeqId := some seqId } t.clients }
  | _, _ => t

/-- The message goes to the connection of its client. -/
def forwardMessage (client : ClientState)
    (seqId : Option ℕ) (message : JSONRPCMessage Payload) (around : Surroundings) :
    Handled Payload :=
  if around.incomingTaken then
    { tracker := (t.touch key client around.now).recordInboundMessageDelivery key seqId
      sent := [.incomingMessage client.connectionId message] }
  else
    { tracker := t.touch key client around.now, result := .error .stopped }

/-- A new client, and the stream of one that sends no stream id. -/
def insertClient (isLegacyStreamId : Bool) (around : Surroundings) : ClientTracker where
  clients := insert key
    { connectionId := around.connectionId, lastActivityAt := around.now, lastInboundSeqId := none }
    t.clients
  legacyStreamIds :=
    if isLegacyStreamId then insert (ofLex key).1 (ofLex key).2 t.legacyStreamIds
    else t.legacyStreamIds

/-- An initialize message opens a connection and goes to it. -/
def openClient (isLegacyStreamId : Bool)
    (seqId : Option ℕ) (message : JSONRPCMessage Payload) (around : Surroundings) :
    Handled Payload :=
  if !around.openedTaken then
    { tracker := t, result := .error .stopped }
  else
    let t := t.insertClient key isLegacyStreamId around
    if !around.incomingTaken then
      -- the close event is sent by a task of its own
      { tracker := t.removeClient key
        sent := .connectionOpened around.connectionId ::
          if around.closedTaken then [.connectionClosed around.connectionId] else []
        result := .error .stopped }
    else
      { tracker := if isLegacyStreamId then t else t.recordInboundMessageDelivery key seqId
        sent := [.connectionOpened around.connectionId,
          .incomingMessage around.connectionId message] }

/-- The sequence id is not above the last one that was delivered. -/
def isDuplicate (seqId : Option ℕ) : Bool :=
  seqId.any fun seqId => (get key t.clients).any fun client =>
    client.lastInboundSeqId.any fun lastSeqId => seqId ≤ lastSeqId

/-- The branch of `handle_message` for a client message. -/
def handleClientMessage (isLegacyStreamId : Bool)
    (seqId : Option ℕ) (message : JSONRPCMessage Payload) (around : Surroundings) :
    Handled Payload :=
  if t.isDuplicate key seqId ∧ !message.startsConnection then { tracker := t }
  else
    let closing : Handled Payload :=
      if message.startsConnection then t.closeClient key around.closedTaken else { tracker := t }
    match closing.result with
    | .error _ => closing
    | .ok _ =>
      match get key closing.tracker.clients with
      | some client => closing.tracker.forwardMessage key client seqId message around
      | none =>
        if !message.startsConnection then closing
        else
          let opening := closing.tracker.openClient key isLegacyStreamId seqId message around
          { opening with sent := closing.sent ++ opening.sent }

/-- The stream of a message, and the legacy streams that are left. -/
def resolveStreamId (envelope : ClientEnvelope (JSONRPCMessage Payload))
    (around : Surroundings) : Text × List (Text × Text) :=
  let isInitialize := match envelope.event with
    | .clientMessage message => message.startsConnection
    | _ => false
  match envelope.streamId with
  | some streamId => (streamId, t.legacyStreamIds)
  | none =>
    let legacy := get envelope.clientId t.legacyStreamIds
    if isInitialize then
      (legacy.getD around.randomStreamId, erase envelope.clientId t.legacyStreamIds)
    else
      (legacy.getD (match envelope.event with
        | .ping => around.randomStreamId
        | _ => []), t.legacyStreamIds)

def handleMessage (envelope : ClientEnvelope (JSONRPCMessage Payload))
    (around : Surroundings) : Handled Payload :=
  let (streamId, legacyStreamIds) := t.resolveStreamId envelope around
  let t := { t with legacyStreamIds }
  if streamId.isEmpty then { tracker := t }
  else
    let key : StreamKey := toLex (envelope.clientId, streamId)
    match envelope.event with
    | .clientMessage message =>
      t.handleClientMessage key envelope.streamId.isNone envelope.seqId message around
    | .clientMessageChunk _ _ _ _ | .ack _ => { tracker := t }
    | .ping =>
      match get key t.clients with
      | some client =>
        { tracker := t.touch key client around.now, pongs := [(key, .active)] }
      | none => { tracker := t, pongs := [(key, .unknown)] }
    | .clientClosed => t.closeClient key around.closedTaken

/-- `remote_control_client_is_alive`. -/
def isAlive (client : ClientState) (now : ℕ) : Bool := now - client.lastActivityAt < clientIdleTimeout

/-- Closes clients one after the other, to the first event that is not taken. -/
def closeClients (taken : StreamKey → Bool) : List StreamKey → ClientTracker → Handled Payload
  | [], t => { tracker := t }
  | key :: keys, t =>
    let closing : Handled Payload := t.closeClient key (taken key)
    match closing.result with
    | .error _ => closing
    | .ok _ =>
      let later := closeClients taken keys closing.tracker
      { later with sent := closing.sent ++ later.sent }

/-- `close_expired_clients`; `visited` are the clients in the order of the hash map. -/
def closeExpiredClients (now : ℕ) (visited : List StreamKey)
    (taken : StreamKey → Bool) : Handled Payload :=
  closeClients taken (visited.filter fun key =>
    (get key t.clients).any fun client => !isAlive client now) t

/-- `shutdown`: every client is closed, whatever becomes of the events. -/
def shutdown (taken : StreamKey → Bool) : Handled Payload :=
  (t.clients.map (·.1)).foldl (fun handled key =>
      let closing : Handled Payload := handled.tracker.closeClient key (taken key)
      { tracker := closing.tracker, sent := handled.sent ++ closing.sent })
    { tracker := t }

end ClientTracker

/-! ## What a message can do -/

/-- The messages that the app server took. -/
def Handled.forwarded (h : Handled Payload) : List (JSONRPCMessage Payload) :=
  h.sent.filterMap fun
    | .incomingMessage _ message => some message
    | _ => none

namespace ClientTracker

/-- No client is new, and no delivery was recorded. -/
def Keeps (t t' : ClientTracker) : Prop :=
  ∀ key client', get key t'.clients = some client' →
    ∃ client, get key t.clients = some client ∧
      client'.lastInboundSeqId = client.lastInboundSeqId

/-- The clients with one of them set. -/
structure SetsClient (t t' : ClientTracker) (key : StreamKey) (client : ClientState) : Prop where
  here : SortedMap.get key t'.clients = some client
  elsewhere : ∀ key', key' ≠ key → SortedMap.get key' t'.clients = SortedMap.get key' t.clients

theorem Keeps.refl (t : ClientTracker) : t.Keeps t :=
  fun _ client' h => ⟨client', h, rfl⟩

theorem Keeps.trans {t₁ t₂ t₃ : ClientTracker} (h₁ : t₁.Keeps t₂) (h₂ : t₂.Keeps t₃) :
    t₁.Keeps t₃ := by
  intro key client₃ hclient₃
  obtain ⟨client₂, hclient₂, hlast₂⟩ := h₂ key client₃ hclient₃
  obtain ⟨client₁, hclient₁, hlast₁⟩ := h₁ key client₂ hclient₂
  exact ⟨client₁, hclient₁, hlast₂.trans hlast₁⟩

variable {key : StreamKey} {client : ClientState}

theorem SetsClient.trans {t₁ t₂ t₃ : ClientTracker} {client' : ClientState}
    (h₁ : t₁.SetsClient t₂ key client) (h₂ : t₂.SetsClient t₃ key client') :
    t₁.SetsClient t₃ key client' :=
  ⟨h₂.here, fun key' hkey => (h₂.elsewhere key' hkey).trans (h₁.elsewhere key' hkey)⟩

variable {t : ClientTracker}

theorem SetsClient.keeps {t' : ClientTracker} {client' : ClientState}
    (h : t.SetsClient t' key client') (hclient : get key t.clients = some client)
    (hlast : client'.lastInboundSeqId = client.lastInboundSeqId) : t.Keeps t' := by
  intro key' other hother
  by_cases hkey : key' = key
  · subst hkey
    obtain rfl := some.inj (h.here.symm.trans hother)
    exact ⟨client, hclient, hlast⟩
  · rw [h.elsewhere key' hkey] at hother
    exact ⟨other, hother, rfl⟩

theorem keeps_removeClient (t : ClientTracker) (key : StreamKey) : t.Keeps (t.removeClient key) :=
  fun _ client' h => ⟨client', get_of_get_erase h, rfl⟩

theorem setsClient_insert (t : ClientTracker) (key : StreamKey) (client : ClientState)
    (legacyStreamIds : List (Text × Text)) :
    t.SetsClient ⟨insert key client t.clients, legacyStreamIds⟩ key client :=
  ⟨get_insert_self, fun _ hkey => get_insert_of_ne hkey⟩

theorem setsClient_record (hclient : get key t.clients = some client) (seqId : Option ℕ) :
    t.SetsClient (t.recordInboundMessageDelivery key seqId) key
      { client with lastInboundSeqId := seqId.or client.lastInboundSeqId } := by
  cases seqId with
  | none => exact ⟨hclient, fun _ _ => rfl⟩
  | some seqId =>
    simp only [recordInboundMessageDelivery, hclient]
    exact t.setsClient_insert key _ _

/-- Closing a client forwards nothing and removes it alone. -/
theorem closeClient_spec (t : ClientTracker) (key : StreamKey) (taken : Bool) :
    (t.closeClient key taken : Handled Payload).forwarded = [] ∧
      get key (t.closeClient key taken : Handled Payload).tracker.clients = none ∧
      t.Keeps (t.closeClient key taken : Handled Payload).tracker := by
  rw [closeClient]
  cases hclient : get key t.clients with
  | none => exact ⟨rfl, hclient, Keeps.refl t⟩
  | some client =>
    cases taken <;> exact ⟨rfl, get_erase_self, t.keeps_removeClient key⟩

variable {h : Handled Payload}

/-- A message to a known client is forwarded and recorded, or neither. -/
theorem forwardMessage_cases (hclient : get key t.clients = some client)
    (seqId : Option ℕ) (message : JSONRPCMessage Payload) (around : Surroundings)
    (hh : t.forwardMessage key client seqId message around = h) :
    (h.forwarded = [] ∧ t.Keeps h.tracker) ∨
      (h.forwarded = [message] ∧ t.SetsClient h.tracker key
        { client with
          lastActivityAt := around.now
          lastInboundSeqId := seqId.or client.lastInboundSeqId }) := by
  have htouch : t.SetsClient (t.touch key client around.now) key
      { client with lastActivityAt := around.now } := t.setsClient_insert key _ _
  rw [forwardMessage] at hh
  by_cases htaken : around.incomingTaken
  · rw [if_pos htaken] at hh
    subst hh
    exact .inr ⟨rfl, htouch.trans (setsClient_record htouch.here seqId)⟩
  · rw [if_neg htaken] at hh
    subst hh
    exact .inl ⟨rfl, htouch.keeps hclient rfl⟩

/-- What opening does: there is no new client, or the message was taken and the client is
there with the sequence id, unless it sends no stream id. -/
theorem openClient_cases (t : ClientTracker) (key : StreamKey) (isLegacyStreamId : Bool)
    (seqId : Option ℕ) (message : JSONRPCMessage Payload) (around : Surroundings)
    (hh : t.openClient key isLegacyStreamId seqId message around = h) :
    (h.forwarded = [] ∧ t.Keeps h.tracker) ∨
      (h.forwarded = [message] ∧ t.SetsClient h.tracker key
        { connectionId := around.connectionId
          lastActivityAt := around.now
          lastInboundSeqId := if isLegacyStreamId then none else seqId }) := by
  have hinsert : t.SetsClient (t.insertClient key isLegacyStreamId around) key
      { connectionId := around.connectionId, lastActivityAt := around.now, lastInboundSeqId := none } :=
    t.setsClient_insert key _ _
  rw [openClient] at hh
  by_cases hopened : around.openedTaken
  · rw [if_neg (by simp [hopened])] at hh
    by_cases htaken : around.incomingTaken
    · rw [if_neg (by simp [htaken])] at hh
      subst hh
      refine .inr ⟨rfl, ?_⟩
      cases isLegacyStreamId with
      | true => exact hinsert
      | false =>
        have hrecord := hinsert.trans (setsClient_record hinsert.here seqId)
        rw [or_none] at hrecord
        exact hrecord
    · rw [if_pos (by simp [htaken])] at hh
      subst hh
      refine .inl ⟨by cases around.closedTaken <;> rfl, fun key' client' hclient' => ?_⟩
      -- the client that was not told of its connection is removed again
      by_cases hkey : key' = key
      · subst hkey
        exact absurd (get_erase_self.symm.trans hclient') nofun
      · have hclient := get_of_get_erase hclient'
        rw [hinsert.elsewhere key' hkey] at hclient
        exact ⟨client', hclient, rfl⟩
  · rw [if_pos (by simp [hopened])] at hh
    subst hh
    exact .inl ⟨rfl, Keeps.refl t⟩

theorem forwarded_append (first second : List (TransportEvent Payload)) (t : ClientTracker)
    (pongs : List (StreamKey × PongStatus)) (result : Except Stopped Unit) :
    (⟨t, first ++ second, pongs, result⟩ : Handled Payload).forwarded =
      (⟨t, first, pongs, result⟩ : Handled Payload).forwarded ++
        (⟨t, second, pongs, result⟩ : Handled Payload).forwarded :=
  filterMap_append

/-- **All that a client message can do**: nothing is recorded; or the app server took it on
the connection that its stream has, and its sequence id is above the last one and takes
its place; or it is an initialize message that the app server took, and its stream has a
new client. -/
theorem handleClientMessage_cases (t : ClientTracker) (key : StreamKey) (isLegacyStreamId : Bool)
    (seqId : Option ℕ) (message : JSONRPCMessage Payload) (around : Surroundings)
    (hh : t.handleClientMessage key isLegacyStreamId seqId message around = h) :
    (h.forwarded = [] ∧ t.Keeps h.tracker) ∨
      (h.forwarded = [message] ∧ message.startsConnection = false ∧
        ∃ client, get key t.clients = some client ∧
          (∀ last ∈ client.lastInboundSeqId, ∀ seq ∈ seqId, last < seq) ∧
          t.SetsClient h.tracker key
            { client with
              lastActivityAt := around.now
              lastInboundSeqId := seqId.or client.lastInboundSeqId }) ∨
      (h.forwarded = [message] ∧ message.startsConnection = true ∧
        ∃ t₀, t.Keeps t₀ ∧ t₀.SetsClient h.tracker key
          { connectionId := around.connectionId
            lastActivityAt := around.now
            lastInboundSeqId := if isLegacyStreamId then none else seqId }) := by
  rw [handleClientMessage] at hh
  cases hinit : message.startsConnection with
  | false =>
    by_cases hdup : t.isDuplicate key seqId
    · rw [if_pos (by simp [hdup, hinit])] at hh
      subst hh
      exact .inl ⟨rfl, Keeps.refl t⟩
    · rw [if_neg (by simp [hdup])] at hh
      simp only [hinit, Bool.false_eq_true, if_false, Bool.not_false, if_true] at hh
      cases hclient : get key t.clients with
      | none =>
        rw [hclient] at hh
        subst hh
        exact .inl ⟨rfl, Keeps.refl t⟩
      | some client =>
        rw [hclient] at hh
        have hnew : ∀ last ∈ client.lastInboundSeqId, ∀ seq ∈ seqId, last < seq := by
          intro last hlast seq hseq
          rw [isDuplicate, mem_def.1 hseq, hclient] at hdup
          simp only [any_some, mem_def.1 hlast, decide_eq_true_eq] at hdup
          exact not_le.1 hdup
        rcases forwardMessage_cases hclient seqId message around hh with hkept | ⟨hsent, hsets⟩
        · exact .inl hkept
        · exact .inr (.inl ⟨hsent, rfl, client, rfl, hnew, hsets⟩)
  | true =>
    rw [if_neg (by simp [hinit])] at hh
    simp only [hinit, if_true] at hh
    set closing : Handled Payload := t.closeClient key around.closedTaken with hclosing
    obtain ⟨hforwarded, hgone, hkeeps⟩ : closing.forwarded = [] ∧
        get key closing.tracker.clients = none ∧ t.Keeps closing.tracker :=
      t.closeClient_spec key around.closedTaken
    cases hresult : closing.result with
    | error _ =>
      rw [hresult] at hh
      subst hh
      exact .inl ⟨hforwarded, hkeeps⟩
    | ok _ =>
      rw [hresult, hgone] at hh
      simp only [Bool.not_true, Bool.false_eq_true, if_false] at hh
      subst hh
      rcases openClient_cases _ key isLegacyStreamId seqId message around rfl with
        ⟨hsent, hsets⟩ | ⟨hsent, hsets⟩
      · exact .inl ⟨by rw [forwarded_append]; exact append_eq_nil_iff.2 ⟨hforwarded, hsent⟩,
          hkeeps.trans hsets⟩
      · refine .inr (.inr ⟨?_, rfl, _, hkeeps, hsets⟩)
        rw [forwarded_append]
        exact congrArg₂ (· ++ ·) hforwarded hsent

/-- All that a message can do to the clients. -/
theorem handleMessage_cases (t : ClientTracker) (envelope : ClientEnvelope (JSONRPCMessage Payload))
    (around : Surroundings) (hh : t.handleMessage envelope around = h)
    (hkey : key = toLex (envelope.clientId, (t.resolveStreamId envelope around).1)) :
    (h.forwarded = [] ∧ t.Keeps h.tracker) ∨
      (∃ message client, h.forwarded = [message] ∧ message.startsConnection = false ∧
        get key t.clients = some client ∧
        (∀ last ∈ client.lastInboundSeqId, ∀ seq ∈ envelope.seqId, last < seq) ∧
        t.SetsClient h.tracker key
          { client with
            lastActivityAt := around.now
            lastInboundSeqId := envelope.seqId.or client.lastInboundSeqId }) ∨
      (∃ message t₀, h.forwarded = [message] ∧ message.startsConnection = true ∧
        t.Keeps t₀ ∧ t₀.SetsClient h.tracker key
          { connectionId := around.connectionId
            lastActivityAt := around.now
            lastInboundSeqId := if envelope.streamId.isNone then none else envelope.seqId }) := by
  rw [handleMessage] at hh
  dsimp only at hh
  rw [← hkey] at hh
  split_ifs at hh
  · subst hh
    exact .inl ⟨rfl, Keeps.refl t⟩
  · cases hevent : envelope.event with
    | clientMessage message =>
      rw [hevent] at hh
      rcases handleClientMessage_cases _ key _ _ message around hh with
        hkept | ⟨hsent, hinit, client, hclient, hnew, hsets⟩ | ⟨hsent, hinit, t₀, hkeeps, hsets⟩
      · exact .inl hkept
      · exact .inr (.inl ⟨message, client, hsent, hinit, hclient, hnew, hsets.here,
          hsets.elsewhere⟩)
      · exact .inr (.inr ⟨message, t₀, hsent, hinit, hkeeps, hsets⟩)
    | clientMessageChunk _ _ _ _ =>
      rw [hevent] at hh
      subst hh
      exact .inl ⟨rfl, Keeps.refl t⟩
    | ack _ =>
      rw [hevent] at hh
      subst hh
      exact .inl ⟨rfl, Keeps.refl t⟩
    | ping =>
      rw [hevent] at hh
      cases hclient : get key t.clients with
      | none =>
        rw [hclient] at hh
        subst hh
        exact .inl ⟨rfl, Keeps.refl t⟩
      | some client =>
        rw [hclient] at hh
        subst hh
        exact .inl ⟨rfl, (t.setsClient_insert key _ _).keeps hclient rfl⟩
    | clientClosed =>
      rw [hevent] at hh
      subst hh
      obtain ⟨hforwarded, -, hkeeps⟩ := closeClient_spec _ key around.closedTaken
      exact .inl ⟨hforwarded, hkeeps⟩

theorem closeClients_spec (taken : StreamKey → Bool) (keys : List StreamKey) (t : ClientTracker) :
    t.Keeps (closeClients taken keys t : Handled Payload).tracker := by
  induction keys generalizing t with
  | nil => exact Keeps.refl t
  | cons key keys ih =>
    obtain ⟨-, -, hkeeps⟩ := t.closeClient_spec key (taken key)
    rw [closeClients]
    split
    · exact hkeeps
    · exact hkeeps.trans (ih _)

theorem keeps_shutdown (t : ClientTracker) (taken : StreamKey → Bool) :
    t.Keeps (t.shutdown taken : Handled Payload).tracker := by
  -- by induction on the clients that are still to be closed
  have hfold : ∀ (keys : List StreamKey) (handled : Handled Payload), t.Keeps handled.tracker →
      t.Keeps (keys.foldl (fun handled key =>
        let closing : Handled Payload := handled.tracker.closeClient key (taken key)
        { tracker := closing.tracker, sent := handled.sent ++ closing.sent }) handled).tracker := by
    intro keys
    induction keys with
    | nil => exact fun _ h => h
    | cons key keys ih =>
      intro handled h
      obtain ⟨-, -, hkeeps⟩ := handled.tracker.closeClient_spec key (taken key)
      exact ih _ (h.trans hkeeps)
  exact hfold _ _ (Keeps.refl t)

end ClientTracker

/-! ## Runs -/

/-- A message that the app server took. -/
structure Delivery (Payload : Type) where
  key : StreamKey
  seqId : Option ℕ
  isLegacyStreamId : Bool
  message : JSONRPCMessage Payload

/-- The tracker, and the messages that were forwarded so far. -/
structure Session (Payload : Type) where
  tracker : ClientTracker := {}
  log : List (Delivery Payload) := []

/-- What the websocket asks of the tracker. -/
inductive TrackerEvent (Payload : Type) where
  | message (envelope : ClientEnvelope (JSONRPCMessage Payload)) (around : Surroundings)
  | closeExpired (now : ℕ) (visited : List StreamKey) (taken : StreamKey → Bool)
  | close (key : StreamKey) (taken : Bool)
  | shutdown (taken : StreamKey → Bool)

/-- One event; the sequence id and the stream of a forwarded message are those of its
envelope. -/
def Session.step (s : Session Payload) : TrackerEvent Payload → Session Payload
  | .message envelope around =>
    let handled := s.tracker.handleMessage envelope around
    { tracker := handled.tracker
      log := s.log ++ handled.forwarded.map fun message =>
        { key := toLex (envelope.clientId, (s.tracker.resolveStreamId envelope around).1)
          seqId := envelope.seqId
          isLegacyStreamId := envelope.streamId.isNone
          message } }
  | .closeExpired now visited taken =>
    { s with tracker :=
        (s.tracker.closeExpiredClients now visited taken : Handled Payload).tracker }
  | .close key taken => { s with tracker := (s.tracker.closeClient key taken : Handled Payload).tracker }
  | .shutdown taken => { s with tracker := (s.tracker.shutdown taken : Handled Payload).tracker }

/-- The session after the events. -/
def Session.run (events : List (TrackerEvent Payload)) : Session Payload := events.foldl Session.step {}

/-- The sequence ids that a delivery adds to those of its stream. -/
def Delivery.extend (key : StreamKey) (seqIds : List ℕ) (d : Delivery Payload) : List ℕ :=
  if d.key = key then
    if d.message.startsConnection then
      if d.isLegacyStreamId then [] else d.seqId.toList
    else seqIds ++ d.seqId.toList
  else seqIds

open Delivery

/-- The sequence ids forwarded on a stream since its last initialize message, whose own id
counts unless the client sends no stream ids. -/
def stretch (key : StreamKey) (log : List (Delivery Payload)) : List ℕ :=
  log.foldl (extend key) []

theorem stretch_append_singleton (key : StreamKey) (log : List (Delivery Payload))
    (d : Delivery Payload) : stretch key (log ++ [d]) = d.extend key (stretch key log) :=
  foldl_append

theorem pairwise_lt_append_toList {ids : List ℕ} (hids : ids.Pairwise (· < ·)) {seqId : Option ℕ}
    (hlast : ∀ last ∈ ids.getLast?, ∀ seq ∈ seqId, last < seq) :
    (ids ++ seqId.toList).Pairwise (· < ·) := by
  cases seqId with
  | none => rwa [toList_none, append_nil]
  | some seq =>
    refine pairwise_append.2 ⟨hids, pairwise_singleton _ _, fun id hid seq' hseq' => ?_⟩
    obtain rfl := mem_singleton.1 hseq'
    obtain ⟨front, last, rfl⟩ := (eq_nil_or_concat' ids).resolve_left (ne_nil_of_mem hid)
    have hlt : last < seq' := hlast last (by simp) seq' rfl
    rcases mem_append.1 hid with hid | hid
    · exact ((pairwise_append.1 hids).2.2 id hid last (mem_singleton.2 rfl)).trans hlt
    · exact mem_singleton.1 hid ▸ hlt

theorem getLast?_append_toList (ids : List ℕ) (seqId : Option ℕ) :
    (ids ++ seqId.toList).getLast? = seqId.or ids.getLast? := by
  cases seqId <;> simp

/-- **The invariant**: the ids of every stretch increase, and a client records the last. -/
structure Session.InOrder (s : Session Payload) : Prop where
  increasing : ∀ key front, front <+: s.log → (stretch key front).Pairwise (· < ·)
  recorded : ∀ key client, SortedMap.get key s.tracker.clients = some client →
    client.lastInboundSeqId = (stretch key s.log).getLast?

namespace Session

variable {s : Session Payload}

theorem InOrder.keep (h : s.InOrder) {t : ClientTracker} (hkeeps : s.tracker.Keeps t) :
    InOrder ⟨t, s.log⟩ where
  increasing := h.increasing
  recorded := by
    intro key client' hclient'
    obtain ⟨client, hclient, hlast⟩ := hkeeps key client' hclient'
    rw [hlast, h.recorded key client hclient]

/-- A forwarded message whose client records the last id of its stretch. -/
theorem InOrder.deliver (h : s.InOrder) {t t₀ : ClientTracker} {d : Delivery Payload}
    {client : ClientState} (hkeeps : s.tracker.Keeps t₀) (hsets : t₀.SetsClient t d.key client)
    (hincreasing : (d.extend d.key (stretch d.key s.log)).Pairwise (· < ·))
    (hrecorded : client.lastInboundSeqId = (d.extend d.key (stretch d.key s.log)).getLast?) :
    InOrder ⟨t, s.log ++ [d]⟩ where
  increasing := by
    intro key front hfront
    rcases prefix_concat_iff.1 hfront with rfl | hfront
    · rw [stretch_append_singleton]
      by_cases hkey : d.key = key
      · rw [← hkey]
        exact hincreasing
      · rw [extend, if_neg hkey]
        exact h.increasing key s.log (prefix_refl _)
    · exact h.increasing key front hfront
  recorded := by
    intro key client' hclient'
    rw [stretch_append_singleton]
    by_cases hkey : d.key = key
    · subst hkey
      obtain rfl := some.inj (hsets.here.symm.trans hclient')
      exact hrecorded
    · rw [hsets.elsewhere key (Ne.symm hkey)] at hclient'
      rw [extend, if_neg hkey]
      exact (h.keep hkeeps).recorded key client' hclient'

/-- **The step lemma.** -/
theorem InOrder.step (h : s.InOrder) (event : TrackerEvent Payload) : (s.step event).InOrder := by
  cases event with
  | message envelope around =>
    rw [Session.step]
    rcases s.tracker.handleMessage_cases envelope around rfl rfl with
      ⟨hsent, hkeeps⟩ | ⟨message, client, hsent, hinit, hclient, hnew, hsets⟩ |
        ⟨message, t₀, hsent, hinit, hkeeps, hsets⟩
    · rw [hsent, map_nil, append_nil]
      exact h.keep hkeeps
    · rw [hsent, map_singleton]
      rw [h.recorded _ client hclient] at hnew
      refine h.deliver (ClientTracker.Keeps.refl _) hsets ?_ ?_
      · rw [extend, if_pos rfl, if_neg (by simp [hinit])]
        exact pairwise_lt_append_toList (h.increasing _ _ (prefix_refl _)) hnew
      · rw [extend, if_pos rfl, if_neg (by simp [hinit]), getLast?_append_toList]
        exact congrArg envelope.seqId.or (h.recorded _ client hclient)
    · rw [hsent, map_singleton]
      refine h.deliver hkeeps hsets ?_ ?_
      · rw [extend, if_pos rfl, if_pos hinit]
        split_ifs
        · exact .nil
        · cases envelope.seqId <;> simp
      · rw [extend, if_pos rfl, if_pos hinit]
        cases envelope.streamId.isNone <;> cases envelope.seqId <;> rfl
  | closeExpired now visited taken => exact h.keep (ClientTracker.closeClients_spec taken _ _)
  | close key taken =>
    obtain ⟨-, -, hkeeps⟩ := s.tracker.closeClient_spec key taken
    exact h.keep hkeeps
  | shutdown taken => exact h.keep (s.tracker.keeps_shutdown taken)

/-- An event that forwards nothing adds no client and records no delivery. -/
theorem keeps_of_log_eq (s : Session Payload) (event : TrackerEvent Payload)
    (hsame : (s.step event).log = s.log) : s.tracker.Keeps (s.step event).tracker := by
  cases event with
  | message envelope around =>
    have hnone : (s.tracker.handleMessage envelope around).forwarded = [] :=
      map_eq_nil_iff.1 (append_right_eq_self.1 hsame)
    rcases s.tracker.handleMessage_cases envelope around rfl rfl with
      ⟨-, hkeeps⟩ | ⟨message, client, hsent, -⟩ | ⟨message, t₀, hsent, -⟩
    · exact hkeeps
    · exact absurd (hnone.symm.trans hsent) nofun
    · exact absurd (hnone.symm.trans hsent) nofun
  | closeExpired now visited taken => exact ClientTracker.closeClients_spec taken _ _
  | close key taken => exact (s.tracker.closeClient_spec key taken).2.2
  | shutdown taken => exact s.tracker.keeps_shutdown taken

theorem inOrder_run (events : List (TrackerEvent Payload)) : (run events).InOrder := by
  have hfold : ∀ (s : Session Payload), s.InOrder → (events.foldl Session.step s).InOrder := by
    induction events with
    | nil => exact fun _ h => h
    | cons event events ih => exact fun s h => ih _ (h.step event)
  refine hfold {} ⟨fun key front hfront => ?_, fun key client hclient => by cases hclient⟩
  obtain rfl := prefix_nil.1 hfront
  exact .nil

end Session

/-- The sequence ids of the messages of a stream. -/
def seqIds (key : StreamKey) (log : List (Delivery Payload)) : List ℕ :=
  (log.filter (·.key = key)).filterMap (·.seqId)

/-- Until the next initialize message a stretch only grows. -/
theorem stretch_append_uninterrupted {key : StreamKey} (front : List (Delivery Payload))
    {mid : List (Delivery Payload)}
    (hmid : ∀ d ∈ mid, d.key = key → d.message.startsConnection = false) :
    stretch key (front ++ mid) = stretch key front ++ seqIds key mid := by
  induction mid generalizing front with
  | nil => rw [seqIds, filter_nil, filterMap_nil, append_nil, append_nil]
  | cons d mid ih =>
    have hrest := ih (front ++ [d]) fun d' hd' => hmid d' (.tail _ hd')
    rw [append_assoc, singleton_append, stretch_append_singleton] at hrest
    rw [hrest, extend]
    by_cases hkey : d.key = key
    · rw [if_pos hkey, if_neg (by simp [hmid d mem_cons_self hkey]), append_assoc, seqIds,
        seqIds, filter_cons_of_pos (by simpa using hkey), filterMap_cons]
      cases d.seqId <;> rfl
    · rw [if_neg hkey, seqIds, seqIds, filter_cons_of_neg (by simpa using hkey)]

/-- The ids of a stretch were forwarded on its stream. -/
theorem mem_seqIds_of_mem_stretch {key : StreamKey} {log : List (Delivery Payload)} {seqId : ℕ}
    (h : seqId ∈ stretch key log) : ∃ d ∈ log, d.key = key ∧ d.seqId = some seqId := by
  induction log using List.reverseRecOn with
  | nil => cases h
  | append_singleton log d ih =>
    rw [stretch_append_singleton, extend] at h
    have hold : seqId ∈ stretch key log → ∃ d' ∈ log ++ [d], d'.key = key ∧ d'.seqId = some seqId := by
      intro h
      obtain ⟨d', hd', hkey⟩ := ih h
      exact ⟨d', mem_append_left _ hd', hkey⟩
    have hnew : d.key = key → seqId ∈ d.seqId.toList →
        ∃ d' ∈ log ++ [d], d'.key = key ∧ d'.seqId = some seqId :=
      fun hkey h => ⟨d, by simp, hkey, mem_toList.1 h⟩
    split_ifs at h with hkey hinit hlegacy
    · cases h
    · exact hnew hkey h
    · exact (mem_append.1 h).elim hold (hnew hkey)
    · exact hold h

/-- **The forwarded messages after any run**, with any events lost on the way to the app
server.  Between two initialize messages of a stream (that the app server took, and so all
the more between two that were received) the sequence ids of the forwarded messages
increase; a recorded id is that of a message that was forwarded on the stream; and an event
that forwards nothing records nothing. -/
theorem forwarded_in_order (events : List (TrackerEvent Payload)) :
    let s := Session.run events
    (∀ key front mid back, s.log = front ++ mid ++ back →
      (∀ d ∈ mid, d.key = key → d.message.startsConnection = false) →
      (seqIds key mid).Pairwise (· < ·)) ∧
    (∀ key client, SortedMap.get key s.tracker.clients = some client →
      ∀ seqId ∈ client.lastInboundSeqId, ∃ d ∈ s.log, d.key = key ∧ d.seqId = some seqId) ∧
    ∀ event, (s.step event).log = s.log → s.tracker.Keeps (s.step event).tracker := by
  intro s
  have h : s.InOrder := Session.inOrder_run events
  refine ⟨fun key front mid back hlog hmid => ?_, fun key client hclient seqId hseqId => ?_,
    s.keeps_of_log_eq⟩
  · have hstretch := h.increasing key (front ++ mid) ⟨back, hlog.symm⟩
    rw [stretch_append_uninterrupted front hmid] at hstretch
    exact (pairwise_append.1 hstretch).2.1
  · rw [h.recorded key client hclient] at hseqId
    exact mem_seqIds_of_mem_stretch (mem_of_mem_getLast? hseqId)

end RemoteControl
