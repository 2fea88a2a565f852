/-
# The outbound buffer of the remote-control websocket

Envelopes for the clients stay in a buffer until they are acknowledged, so that they can
be sent again after a reconnect.  An acknowledgement is a cursor: a sequence id with or
without a segment of it.
-/
import BetterCodex.Runs
import BetterCodex.SegmentReassembly

namespace RemoteControl

open RustStr List SortedMap Option

/-! ## Envelopes and cursors -/

inductive PongStatus where
  | active
  | unknown
  deriving DecidableEq, Repr

inductive ServerEvent (Outgoing : Type) where
  | serverMessage (message : Outgoing)
  | serverMessageChunk (segmentId segmentCount messageSizeBytes : ℕ) (messageChunkBase64 : Text)
  | ack
  | pong (status : PongStatus)
  deriving DecidableEq, Repr

structure ServerEnvelope (Outgoing : Type) where
  event : ServerEvent Outgoing
  clientId : Text
  streamId : Text
  seqId : ℕ
  deriving DecidableEq, Repr

/-- A stream of a client. -/
abbrev StreamKey : Type := Text ×ₗ Text

/-- A sequence id and a segment, in lexicographic order. -/
abbrev Cursor : Type := ℕ ×ₗ ℕ

variable {Outgoing Message : Type}

def ServerEvent.segmentId : ServerEvent Outgoing → Option ℕ
  | .serverMessageChunk segmentId _ _ _ => some segmentId
  | .serverMessage _ | .ack | .pong _ => none

def ServerEnvelope.key (e : ServerEnvelope Outgoing) : StreamKey := toLex (e.clientId, e.streamId)

def ServerEnvelope.cursor (e : ServerEnvelope Outgoing) : Cursor :=
  toLex (e.seqId, e.event.segmentId.getD 0)

/-- The cursor of an acknowledgement; without a segment it stands behind every segment. -/
def ackedCursor (seqId : ℕ) (segmentId : Option ℕ) : Cursor := toLex (seqId, segmentId.getD usizeMax)

/-! ## The buffer -/

/-- `BoundedOutboundBuffer`, with the value of its `used` channel. -/
structure BoundedOutboundBuffer (Outgoing : Type) where
  bufferByStream : List (StreamKey × List (ServerEnvelope Outgoing)) := []
  used : ℕ := 0
  deriving DecidableEq

namespace BoundedOutboundBuffer

variable (b : BoundedOutboundBuffer Outgoing)

/-- The envelopes of a stream. -/
def envelopes (key : StreamKey) : List (ServerEnvelope Outgoing) :=
  (get key b.bufferByStream).getD []

/-- `server_envelopes`: the envelopes of all streams. -/
def serverEnvelopes : List (ServerEnvelope Outgoing) :=
  b.bufferByStream.flatMap (·.2)

def insert (e : ServerEnvelope Outgoing) : BoundedOutboundBuffer Outgoing where
  bufferByStream := SortedMap.insert e.key (b.envelopes e.key ++ [e]) b.bufferByStream
  used := b.used + 1

/-- `used -= 1`, which underflows at zero. -/
def decrementUsed : ℕ → Option ℕ
  | 0 => none
  | used + 1 => some used

/-- The `retain` of `ack`: what is left of a stream, and the counter behind each removal. -/
def retainAbove (acked : Cursor) :
    List (ServerEnvelope Outgoing) → ℕ → Option (List (ServerEnvelope Outgoing) × ℕ)
  | [], used => some ([], used)
  | e :: buffer, used =>
    if e.cursor ≤ acked then
      (decrementUsed used).bind (retainAbove acked buffer)
    else
      (retainAbove acked buffer used).map fun (kept, used) => (e :: kept, used)

/-- The streams with one of them set; a stream without envelopes is removed. -/
def setStream (key : StreamKey) (kept : List (ServerEnvelope Outgoing))
    (streams : List (StreamKey × List (ServerEnvelope Outgoing))) :
    List (StreamKey × List (ServerEnvelope Outgoing)) :=
  if kept.isEmpty then SortedMap.erase key streams else SortedMap.insert key kept streams

/-- `ack`; none where the counter underflows. -/
def ack (clientId streamId : Text) (ackedSeqId : ℕ)
    (ackedSegmentId : Option ℕ) : Option (BoundedOutboundBuffer Outgoing) :=
  let key : StreamKey := toLex (clientId, streamId)
  match get key b.bufferByStream with
  | none => some b
  | some buffer => do
    let (kept, used) ← retainAbove (ackedCursor ackedSeqId ackedSegmentId) buffer b.used
    return { bufferByStream := setStream key kept b.bufferByStream, used }

/-- The part of `record_client_message_delivery` about the outbound buffer. -/
def recordClientMessageDelivery
    (envelope : ClientEnvelope Message) : Option (BoundedOutboundBuffer Outgoing) :=
  match envelope.event, envelope.seqId, envelope.streamId with
  | .ack segmentId, some ackedSeqId, some streamId =>
    b.ack envelope.clientId streamId ackedSeqId segmentId
  | _, _, _ => some b

end BoundedOutboundBuffer

/-! ## Histories -/

/-- An envelope is sent to a client, or one of a client is delivered. -/
inductive BufferEvent (Outgoing Message : Type) where
  | insert (e : ServerEnvelope Outgoing)
  | deliver (envelope : ClientEnvelope Message)

/-- The buffer behind an event. -/
def BoundedOutboundBuffer.step (b : BoundedOutboundBuffer Outgoing) :
    BufferEvent Outgoing Message → Option (BoundedOutboundBuffer Outgoing)
  | .insert e => some (b.insert e)
  | .deliver envelope => b.recordClientMessageDelivery envelope

/-- The stream and the cursor that a delivered envelope acknowledges. -/
def ClientEnvelope.acked (envelope : ClientEnvelope Message) : Option (StreamKey × Cursor) :=
  match envelope.event, envelope.seqId, envelope.streamId with
  | .ack segmentId, some ackedSeqId, some streamId =>
    some (toLex (envelope.clientId, streamId), ackedCursor ackedSeqId segmentId)
  | _, _, _ => none

/-- The event acknowledges the envelope. -/
def BufferEvent.covers (e : ServerEnvelope Outgoing) : BufferEvent Outgoing Message → Bool
  | .insert _ => false
  | .deliver envelope => envelope.acked.any fun a => a.1 = e.key ∧ e.cursor ≤ a.2

/-- The envelopes of a stream that were sent and not acknowledged afterwards, in the order
in which they were sent. -/
def unacked (key : StreamKey) : List (BufferEvent Outgoing Message) → List (ServerEnvelope Outgoing)
  | [] => []
  | .insert e :: later =>
    if e.key = key ∧ ¬ later.any (·.covers e) then e :: unacked key later else unacked key later
  | .deliver _ :: later => unacked key later

variable (key : StreamKey) (events : List (BufferEvent Outgoing Message))

open BufferEvent

/-- A new envelope goes to the end of its stream. -/
theorem unacked_append_insert (e : ServerEnvelope Outgoing) :
    unacked key (events ++ [.insert e]) = unacked key events ++ if e.key = key then [e] else [] := by
  induction events with
  | nil => by_cases hkey : e.key = key <;> simp [unacked, hkey]
  | cons event events ih =>
    cases event with
    | deliver envelope => exact ih
    | insert e' =>
      -- a send acknowledges nothing, so the envelopes before it stay as they are
      have hany : (events ++ [insert e]).any (·.covers e') = events.any (·.covers e') := by
        simp [covers]
      rw [cons_append, unacked, unacked, hany, ih]
      by_cases hkept : e'.key = key ∧ ¬ events.any (·.covers e')
      · rw [if_pos hkept, if_pos hkept, cons_append]
      · rw [if_neg hkept, if_neg hkept]

/-- A delivery takes off the envelopes that it covers. -/
theorem unacked_append_deliver (envelope : ClientEnvelope Message) :
    unacked key (events ++ [.deliver envelope]) =
      (unacked key events).filter fun e =>
        ! (deliver envelope : BufferEvent Outgoing Message).covers e := by
  induction events with
  | nil => rfl
  | cons event events ih =>
    cases event with
    | deliver _ => exact ih
    | insert e' =>
      rw [cons_append, unacked, unacked, ih]
      by_cases hkey : e'.key = key
      · by_cases hearlier : events.any (·.covers e')
        · rw [if_neg (by simp [hearlier]), if_neg (by simp [hearlier])]
        · rw [if_pos (show e'.key = key ∧ ¬ events.any (·.covers e') from ⟨hkey, hearlier⟩),
            filter_cons]
          have hany : (events ++ [deliver envelope]).any (·.covers e') =
              (deliver envelope : BufferEvent Outgoing Message).covers e' := by
            simp [any_append, Bool.not_eq_true _ ▸ hearlier]
          rw [hany]
          cases (deliver envelope : BufferEvent Outgoing Message).covers e' <;> simp [hkey]
      · rw [if_neg (fun h => hkey h.1), if_neg (fun h => hkey h.1)]

theorem key_of_mem_unacked {key : StreamKey} {events : List (BufferEvent Outgoing Message)}
    {e : ServerEnvelope Outgoing} (h : e ∈ unacked key events) : e.key = key := by
  induction events with
  | nil => cases h
  | cons event events ih =>
    cases event with
    | deliver _ => exact ih h
    | insert e' =>
      rw [unacked] at h
      split_ifs at h with hkept
      · rcases mem_cons.1 h with rfl | h
        · exact hkept.1
        · exact ih h
      · exact ih h

/-! ## The buffer follows its history -/

namespace BoundedOutboundBuffer

/-- The loop keeps what is above the cursor. -/
theorem retainAbove_eq (acked : Cursor) (buffer : List (ServerEnvelope Outgoing)) (others : ℕ) :
    retainAbove acked buffer (buffer.length + others) =
      some (buffer.filter fun e => ¬ e.cursor ≤ acked,
        (buffer.filter fun e => ¬ e.cursor ≤ acked).length + others) := by
  induction buffer generalizing others with
  | nil => rfl
  | cons e buffer ih =>
    rw [retainAbove]
    by_cases hacked : e.cursor ≤ acked
    · have hused : (e :: buffer).length + others = (buffer.length + others) + 1 := by
        rw [length_cons]
        omega
      rw [if_pos hacked, hused, decrementUsed, bind_some, ih,
        filter_cons_of_neg (by simpa using hacked)]
    · have hused : (e :: buffer).length + others = buffer.length + (others + 1) := by
        rw [length_cons]
        omega
      rw [if_neg hacked, hused, ih, map_some,
        filter_cons_of_pos (by simpa using hacked), length_cons]
      simp only [some.injEq, Prod.mk.injEq, true_and]
      omega

/-- **The invariant of the buffer**: it holds what its history leaves over, and counts it. -/
structure Follows (b : BoundedOutboundBuffer Outgoing) (events : List (BufferEvent Outgoing Message)) :
    Prop where
  sorted : SortedMap.Sorted b.bufferByStream
  envelopes_eq : ∀ key, b.envelopes key = unacked key events
  used_eq : b.used = SortedMap.total List.length b.bufferByStream

theorem used_eq_length_add (b : BoundedOutboundBuffer Outgoing) (key : StreamKey)
    (hsorted : SortedMap.Sorted b.bufferByStream) :
    total List.length b.bufferByStream =
      (b.envelopes key).length +
        total List.length (erase key b.bufferByStream) := by
  rw [total_eq_erase List.length key hsorted, envelopes]
  cases get key b.bufferByStream <;> rfl

variable {b : BoundedOutboundBuffer Outgoing} {events : List (BufferEvent Outgoing Message)}

/-- The buffer follows the history when an envelope is put in. -/
theorem Follows.insert (h : b.Follows events) (e : ServerEnvelope Outgoing) :
    (b.insert e).Follows (events ++ [.insert e]) where
  sorted := h.sorted.insert
  envelopes_eq := by
    intro key
    rw [unacked_append_insert, ← h.envelopes_eq, envelopes, BoundedOutboundBuffer.insert,
      get_insert]
    by_cases hkey : e.key = key
    · rw [if_pos hkey.symm, if_pos hkey, getD_some, hkey]
    · rw [if_neg (Ne.symm hkey), if_neg hkey, append_nil, envelopes]
  used_eq := by
    show b.used + 1 = SortedMap.total List.length (SortedMap.insert _ _ b.bufferByStream)
    rw [total_insert_erase _ _ h.sorted, h.used_eq, b.used_eq_length_add e.key h.sorted,
      length_append, length_singleton]
    omega

theorem sorted_setStream {streams : List (StreamKey × List (ServerEnvelope Outgoing))}
    (hsorted : SortedMap.Sorted streams) (key : StreamKey) (kept : List (ServerEnvelope Outgoing)) :
    SortedMap.Sorted (setStream key kept streams) := by
  rw [setStream]
  split_ifs
  · exact hsorted.erase
  · exact hsorted.insert

theorem getD_setStream (key key' : StreamKey) (kept : List (ServerEnvelope Outgoing))
    (streams : List (StreamKey × List (ServerEnvelope Outgoing))) :
    (SortedMap.get key' (setStream key kept streams)).getD [] =
      if key' = key then kept else (SortedMap.get key' streams).getD [] := by
  cases kept with
  | nil =>
    rw [setStream, if_pos isEmpty_nil, get_erase]
    by_cases hkey : key' = key
    · rw [if_pos hkey, if_pos hkey, getD_none]
    · rw [if_neg hkey, if_neg hkey]
  | cons e kept =>
    rw [setStream, if_neg (by simp), get_insert]
    by_cases hkey : key' = key
    · rw [if_pos hkey, if_pos hkey, getD_some]
    · rw [if_neg hkey, if_neg hkey]

theorem total_setStream {streams : List (StreamKey × List (ServerEnvelope Outgoing))}
    (hsorted : SortedMap.Sorted streams) (key : StreamKey) (kept : List (ServerEnvelope Outgoing)) :
    total List.length (setStream key kept streams) =
      kept.length + total List.length (erase key streams) := by
  cases kept with
  | nil => rw [setStream, if_pos isEmpty_nil, length_nil, Nat.zero_add]
  | cons e kept => rw [setStream, if_neg (by simp), total_insert_erase _ _ hsorted]

/-- An acknowledgement removes what its cursor covers, and counts it. -/
theorem ack_eq (hsorted : SortedMap.Sorted b.bufferByStream)
    (hused : b.used = total List.length b.bufferByStream) (clientId streamId : Text)
    (seqId : ℕ) (segmentId : Option ℕ) :
    ∃ used, b.ack clientId streamId seqId segmentId =
      some ⟨setStream (toLex (clientId, streamId))
        ((b.envelopes (toLex (clientId, streamId))).filter fun e =>
          ¬ e.cursor ≤ ackedCursor seqId segmentId) b.bufferByStream, used⟩ ∧
      used = total List.length (setStream (toLex (clientId, streamId))
        ((b.envelopes (toLex (clientId, streamId))).filter fun e =>
          ¬ e.cursor ≤ ackedCursor seqId segmentId) b.bufferByStream) := by
  rw [total_setStream hsorted, BoundedOutboundBuffer.ack]
  have hsplit := b.used_eq_length_add (toLex (clientId, streamId)) hsorted
  rw [envelopes] at hsplit ⊢
  cases hget : get (toLex (clientId, streamId) : StreamKey) b.bufferByStream with
  | none =>
    rw [hget, getD_none, length_nil, Nat.zero_add] at hsplit
    refine ⟨b.used, ?_, by rw [hused, hsplit]; simp⟩
    rw [getD_none, filter_nil, setStream, if_pos isEmpty_nil, erase_of_get_eq_none hget]
  | some buffer =>
    rw [hget, getD_some] at hsplit
    refine ⟨_, ?_, rfl⟩
    dsimp only
    rw [hused, hsplit, retainAbove_eq]
    rfl

/-- **An acknowledgement** removes from its stream what its cursor covers. -/
theorem Follows.ack (h : b.Follows events) {envelope : ClientEnvelope Message} {streamId : Text}
    {seqId : ℕ} {segmentId : Option ℕ}
    (hacked : envelope.acked = some (toLex (envelope.clientId, streamId), ackedCursor seqId segmentId)) :
    ∃ b', b.ack envelope.clientId streamId seqId segmentId = some b' ∧
      b'.Follows (events ++ [.deliver envelope]) := by
  obtain ⟨used, hb', hused⟩ := ack_eq h.sorted h.used_eq envelope.clientId streamId seqId segmentId
  refine ⟨_, hb', sorted_setStream h.sorted _ _, fun key => ?_, hused⟩
  rw [envelopes, getD_setStream, unacked_append_deliver, ← h.envelopes_eq]
  -- an envelope lies in the stream of its own key
  have hkeys : ∀ e ∈ b.envelopes key, e.key = key := by
    intro e he
    rw [h.envelopes_eq] at he
    exact key_of_mem_unacked he
  by_cases hkey : key = toLex (envelope.clientId, streamId)
  · rw [if_pos hkey, ← hkey]
    refine filter_congr fun e he => ?_
    simp only [covers, hacked, ← hkey, hkeys e he, any_some, true_and, decide_not]
  · rw [if_neg hkey, ← envelopes]
    refine (filter_eq_self.2 fun e he => ?_).symm
    have hne : ¬ toLex (envelope.clientId, streamId) = e.key := by
      rw [hkeys e he]
      exact Ne.symm hkey
    simp [covers, hacked, hne]

/-- **The step lemma**: every event is possible, and the buffer follows the longer history. -/
theorem Follows.step (h : b.Follows events) (event : BufferEvent Outgoing Message) :
    ∃ b', b.step event = some b' ∧ b'.Follows (events ++ [event]) := by
  cases event with
  | insert e => exact ⟨_, rfl, h.insert e⟩
  | deliver envelope =>
    cases hacked : envelope.acked with
    | none =>
      refine ⟨b, ?_, h.sorted, fun key => ?_, h.used_eq⟩
      · rw [BoundedOutboundBuffer.step, recordClientMessageDelivery]
        rw [ClientEnvelope.acked] at hacked
        split at hacked
        · cases hacked
        · rfl
      · rw [unacked_append_deliver, ← h.envelopes_eq]
        simp [covers, hacked]
    | some a =>
      have hshape := hacked
      rw [ClientEnvelope.acked] at hshape
      split at hshape
      case h_1 segmentId seqId streamId hevent hseq hstream =>
        obtain rfl := some.inj hshape
        rw [BoundedOutboundBuffer.step, recordClientMessageDelivery, hevent, hseq, hstream]
        exact h.ack hacked
      case h_2 => cases hshape

/-- The buffer follows every history of operations. -/
theorem Follows.run (h : b.Follows events) (later : List (BufferEvent Outgoing Message)) :
    ∃ b', Runs.run BoundedOutboundBuffer.step b later = some b' ∧ b'.Follows (events ++ later) := by
  induction later generalizing b events with
  | nil => exact ⟨b, rfl, by rwa [append_nil]⟩
  | cons event later ih =>
    obtain ⟨b₁, hstep, h₁⟩ := h.step event
    obtain ⟨b₂, hrun, h₂⟩ := ih h₁
    refine ⟨b₂, Runs.run_cons_eq_some.2 ⟨b₁, hstep, hrun⟩, ?_⟩
    rwa [append_assoc, singleton_append] at h₂

theorem length_serverEnvelopes (b : BoundedOutboundBuffer Outgoing) :
    b.serverEnvelopes.length = total List.length b.bufferByStream :=
  length_flatMap

/-- **The buffer after any history** of sends and delivered client envelopes: the counter
never underflows; each stream holds, in the order of sending, exactly the envelopes that
lie above every cursor acknowledged after they were sent; and the counter is the number of
the envelopes in the buffer. -/
theorem holds_unacked (events : List (BufferEvent Outgoing Message)) :
    ∃ b, Runs.run step ({} : BoundedOutboundBuffer Outgoing) events = some b ∧
      (∀ clientId streamId, b.envelopes (toLex (clientId, streamId)) =
        unacked (toLex (clientId, streamId)) events) ∧
      b.used = b.serverEnvelopes.length := by
  have hnew : ({} : BoundedOutboundBuffer Outgoing).Follows
      ([] : List (BufferEvent Outgoing Message)) :=
    ⟨List.Pairwise.nil, fun _ => rfl, rfl⟩
  obtain ⟨b, hrun, hb⟩ := hnew.run events
  refine ⟨b, hrun, fun clientId streamId => hb.envelopes_eq _, ?_⟩
  rw [hb.used_eq, length_serverEnvelopes]

/-- An envelope that is sent after an acknowledgement beyond it is kept: the buffer does not
remember cursors. -/
theorem sent_after_its_ack_is_kept :
    let acknowledgement : ClientEnvelope Unit :=
      { event := .ack none, clientId := ['c'], streamId := some ['s'], seqId := some 5 }
    let sent : ServerEnvelope Unit :=
      { event := .serverMessage (), clientId := ['c'], streamId := ['s'], seqId := 1 }
    (BufferEvent.deliver acknowledgement : BufferEvent Unit Unit).covers sent ∧
      ∃ b, Runs.run step ({} : BoundedOutboundBuffer Unit)
          [.deliver acknowledgement, .insert sent] = some b ∧
        b.envelopes (toLex (['c'], ['s'])) = [sent] := by
  exact ⟨by decide, _, rfl, by decide⟩

end BoundedOutboundBuffer

end RemoteControl
