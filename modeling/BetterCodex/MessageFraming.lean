/-
# Message framing of the Noise relay

Messages travel in a byte stream that is cut into records: four bytes with the length,
then the message.  `MessageDecoder` puts the records together again.
-/
import BetterCodex.IncrementalDecoding

namespace NoiseRelay

open IncrementalDecoding List

abbrev Bytes : Type := List UInt8

def lengthPrefixBytes : ℕ := 4
def maxNoiseJsonrpcMessageLen : ℕ := 64 * 1024 * 1024
def noiseRecordPlaintextLen : ℕ := 60 * 1024

/-- The protocol errors of framing. -/
inductive FramingError where
  | messageTooLong
  | recordTooLong
  | invalidLength
  | bufferTooLong
  deriving DecidableEq, Repr

/-- The text of an error. -/
def FramingError.message : FramingError → String
  | .messageTooLong => "Noise relay JSON-RPC message exceeds maximum length"
  | .recordTooLong => "Noise relay plaintext record exceeds maximum length"
  | .invalidLength => "Noise relay JSON-RPC message has invalid length"
  | .bufferTooLong => "Noise relay JSON-RPC reassembly buffer exceeds maximum length"

/-! ## Sender -/

/-- `u32::to_be_bytes`. -/
def toBeBytes (n : ℕ) : Bytes :=
  [UInt8.ofNat (n / 2 ^ 24), UInt8.ofNat (n / 2 ^ 16), UInt8.ofNat (n / 2 ^ 8), UInt8.ofNat n]

def messageLengthPrefix (messageLen : ℕ) : Except FramingError Bytes :=
  if messageLen = 0 ∨ maxNoiseJsonrpcMessageLen < messageLen then .error .messageTooLong
  else .ok (toBeBytes (messageLen % 2 ^ 32))

def frameMessage (message : Bytes) : Except FramingError Bytes := do
  let lengthBytes ← messageLengthPrefix message.length
  return lengthBytes ++ message

/-! ## Receiver -/

/-- `u32::from_be_bytes`. -/
def fromBeBytes (b₀ b₁ b₂ b₃ : UInt8) : ℕ :=
  ((b₀.toNat * 2 ^ 8 + b₁.toNat) * 2 ^ 8 + b₂.toNat) * 2 ^ 8 + b₃.toNat

/-- One turn of the loop of `MessageDecoder::push`: the length is checked before its
message is there. -/
def nextMessage : Bytes → Next UInt8 Bytes FramingError
  | b₀ :: b₁ :: b₂ :: b₃ :: payload =>
    let messageLen := fromBeBytes b₀ b₁ b₂ b₃
    if messageLen = 0 ∨ maxNoiseJsonrpcMessageLen < messageLen then .bad .invalidLength
    else if payload.length < messageLen then .more
    else .item (payload.take messageLen) (payload.drop messageLen)
  | _ => .more

structure MessageDecoder where
  buffered : Bytes := []
  deriving DecidableEq, Repr

/-- `MessageDecoder::push`; every turn of the loop shortens the buffer. -/
def MessageDecoder.push (d : MessageDecoder) (plaintextRecord : Bytes) :
    Except FramingError (List Bytes) × MessageDecoder :=
  if noiseRecordPlaintextLen < plaintextRecord.length then (.error .recordTooLong, d)
  else
    let buffered := d.buffered ++ plaintextRecord
    match drain nextMessage buffered.length buffered [] with
    | (.error e, buffered) => (.error e, { buffered })
    | (.ok messages, buffered) =>
      if lengthPrefixBytes + maxNoiseJsonrpcMessageLen < buffered.length then
        (.error .bufferTooLong, { buffered })
      else (.ok messages, { buffered })

/-- Records one after the other, until one of them fails. -/
def MessageDecoder.pushAll (d : MessageDecoder) :
    List Bytes → Except FramingError (List Bytes) × MessageDecoder
  | [] => (.ok [], d)
  | record :: records =>
    match d.push record with
    | (.error e, d) => (.error e, d)
    | (.ok messages, d) =>
      match d.pushAll records with
      | (.error e, d) => (.error e, d)
      | (.ok later, d) => (.ok (messages ++ later), d)

/-! ## Frames tell where they end -/

/-- A message that can be sent. -/
def Sendable (message : Bytes) : Prop :=
  1 ≤ message.length ∧ message.length ≤ maxNoiseJsonrpcMessageLen

/-- The frame of a message. -/
def frame (message : Bytes) : Bytes := toBeBytes message.length ++ message

theorem length_frame (message : Bytes) : (frame message).length = lengthPrefixBytes + message.length := by
  rw [frame, length_append]
  rfl

theorem frameMessage_eq {message : Bytes} (h : Sendable message) :
    frameMessage message = .ok (frame message) := by
  obtain ⟨hpos, hmax⟩ := h
  have hlt : message.length < 2 ^ 32 := Nat.lt_of_le_of_lt hmax (by decide)
  rw [frameMessage, messageLengthPrefix, if_neg (by omega), Nat.mod_eq_of_lt hlt]
  rfl

theorem mapM_frameMessage {messages : List Bytes} (h : ∀ m ∈ messages, Sendable m) :
    messages.mapM frameMessage = .ok (messages.map frame) := by
  induction messages with
  | nil => rfl
  | cons m messages ih =>
    rw [mapM_cons, frameMessage_eq (h m mem_cons_self),
      ih fun m' hm' => h m' (mem_cons_of_mem m hm')]
    rfl

theorem fromBeBytes_ofNat {n : ℕ} (h : n < 2 ^ 32) :
    fromBeBytes (UInt8.ofNat (n / 2 ^ 24)) (UInt8.ofNat (n / 2 ^ 16)) (UInt8.ofNat (n / 2 ^ 8))
      (UInt8.ofNat n) = n := by
  simp only [fromBeBytes, UInt8.toNat_ofNat']
  omega

/-- The front of a buffer that starts with the length of a message. -/
theorem nextMessage_toBeBytes {message : Bytes} (h : Sendable message) (payload : Bytes) :
    nextMessage (toBeBytes message.length ++ payload) =
      if payload.length < message.length then .more
      else .item (payload.take message.length) (payload.drop message.length) := by
  obtain ⟨hpos, hmax⟩ := h
  have hlt : message.length < 2 ^ 32 := Nat.lt_of_le_of_lt hmax (by decide)
  show nextMessage (_ :: _ :: _ :: _ :: payload) = _
  rw [nextMessage, fromBeBytes_ofNat hlt]
  exact if_neg (by omega)

theorem nextMessage_of_length_lt {buffer : Bytes} (h : buffer.length < lengthPrefixBytes) :
    nextMessage buffer = .more := by
  rw [nextMessage]
  rintro b₀ b₁ b₂ b₃ payload rfl
  simp only [length_cons, lengthPrefixBytes] at h
  omega

/-- A frame tells where it ends. -/
theorem selfDelimiting_frame : SelfDelimiting nextMessage frame Sendable where
  ne_nil m _ := append_ne_nil_of_left_ne_nil (cons_ne_nil _ _) m
  nil := rfl
  whole m hm rest := by
    rw [frame, append_assoc, nextMessage_toBeBytes hm, length_append,
      if_neg (by omega), take_left, drop_left]
  part m hm part hpart hlength := by
    by_cases hshort : part.length < lengthPrefixBytes
    · exact nextMessage_of_length_lt hshort
    · -- the length is there, but not the whole message
      obtain ⟨payload, rfl⟩ : toBeBytes m.length <+: part :=
        prefix_of_prefix_length_le ⟨m, rfl⟩ hpart (Nat.not_lt.1 hshort)
      rw [length_append, length_frame] at hlength
      rw [nextMessage_toBeBytes hm]
      exact if_pos (Nat.lt_of_add_lt_add_left hlength)

/-! ## Records -/

/-- The decoder holds the front of a stream, too short for its first message. -/
structure Holds (d : MessageDecoder) (later : Bytes) (messages : List Bytes) : Prop where
  stream : d.buffered ++ later = messages.flatMap frame
  short : ∀ m ∈ messages.head?, d.buffered.length < (frame m).length

/-- One record: the messages that it completes, and the front of the others. -/
theorem push_of_holds {d : MessageDecoder} {record later : Bytes} {messages : List Bytes}
    (h : Holds d (record ++ later) messages) (hmessages : ∀ m ∈ messages, Sendable m)
    (hrecord : record.length ≤ noiseRecordPlaintextLen) :
    ∃ done rest d', messages = done ++ rest ∧ d.push record = (.ok done, d') ∧ Holds d' later rest := by
  have hstream : (d.buffered ++ record) ++ later = messages.flatMap frame := by
    rw [append_assoc, h.stream]
  obtain ⟨done, rest, tail, rfl, hdrain, htail, hshort⟩ :=
    drain_stream selfDelimiting_frame hmessages hstream (Nat.le_refl _) []
  refine ⟨done, rest, { buffered := tail }, rfl, ?_, htail, hshort⟩
  -- what stays in the buffer is shorter than one frame
  have hbound : tail.length ≤ lengthPrefixBytes + maxNoiseJsonrpcMessageLen := by
    cases rest with
    | nil =>
      obtain ⟨rfl, -⟩ := append_eq_nil_iff.1 htail
      exact Nat.zero_le _
    | cons m rest =>
      have hlt := hshort m rfl
      have hmax := (hmessages m (mem_append_right _ mem_cons_self)).2
      rw [length_frame] at hlt
      omega
  rw [MessageDecoder.push, if_neg (Nat.not_lt.2 hrecord)]
  dsimp only
  rw [hdrain]
  exact if_neg (Nat.not_lt.2 hbound)

/-- A decoder in the middle of a message decodes the rest of the stream. -/
theorem pushAll_of_holds {d : MessageDecoder} {records messages : List Bytes}
    (h : Holds d records.flatten messages) (hmessages : ∀ m ∈ messages, Sendable m)
    (hrecords : ∀ r ∈ records, r.length ≤ noiseRecordPlaintextLen) :
    d.pushAll records = (.ok messages, {}) := by
  induction records generalizing d messages with
  | nil =>
    cases messages with
    | nil =>
      obtain ⟨hempty, -⟩ := append_eq_nil_iff.1 h.stream
      obtain ⟨_⟩ := d
      obtain rfl := hempty
      rfl
    | cons m messages =>
      -- a whole message would have been found
      have hshort := h.short m rfl
      have hlength := congrArg List.length h.stream
      rw [flatten_nil, append_nil, flatMap_cons, length_append] at hlength
      omega
  | cons record records ih =>
    obtain ⟨done, rest, d', rfl, hpush, hholds⟩ :=
      push_of_holds h hmessages (hrecords record mem_cons_self)
    have hlater := ih hholds (fun m hm => hmessages m (mem_append_right _ hm))
      fun r hr => hrecords r (mem_cons_of_mem _ hr)
    rw [MessageDecoder.pushAll, hpush]
    dsimp only
    rw [hlater]

/-- **Framing is undone by the decoder.**  Messages of allowed lengths can be framed; for
every cut of the stream of frames into records of allowed lengths, the decoder gives
exactly the messages, without an error, and its buffer is empty at the end. -/
theorem decoded_messages (messages : List Bytes)
    (hlength : ∀ m ∈ messages, 1 ≤ m.length ∧ m.length ≤ maxNoiseJsonrpcMessageLen) :
    ∃ frames, messages.mapM frameMessage = .ok frames ∧
      ∀ records : List Bytes, records.flatten = frames.flatten →
        (∀ r ∈ records, r.length ≤ noiseRecordPlaintextLen) →
        MessageDecoder.pushAll {} records = (.ok messages, {}) := by
  refine ⟨messages.map frame, ?_, fun records hcut hrecords => ?_⟩
  · exact mapM_frameMessage hlength
  · refine pushAll_of_holds ⟨?_, fun m _ => ?_⟩ hlength hrecords
    · rw [nil_append, hcut, flatMap_def]
    · rw [length_frame]
      exact Nat.add_pos_left (by decide) _

/-- Two messages; a record ends inside a length, one is empty, one ends inside a message. -/
theorem decoded_messages_two : ∃ frames, [[7], [8, 9]].mapM frameMessage = .ok frames ∧
    MessageDecoder.pushAll {} [[0, 0], [0, 1, 7, 0], [], [0, 0, 2, 8], [9]] =
      (.ok [[7], [8, 9]], {}) := by
  obtain ⟨frames, hframes, hdecoded⟩ := decoded_messages [[7], [8, 9]] (by decide)
  refine ⟨frames, hframes, hdecoded _ ?_ (by decide)⟩
  obtain rfl := Except.ok.inj hframes
  rfl

/-! ## JSON-RPC messages -/

/-- `JSONRPCMessage`; the rest of the contents is not looked at here. -/
inductive JSONRPCMessage (Rest : Type) where
  | request (rest : Rest)
  | notification (method : String) (rest : Rest)
  | response (rest : Rest)
  | error (rest : Rest)
  deriving DecidableEq, Repr

/-- The errors of the decoders: `ExecServerError::Protocol` and `ExecServerError::Json`. -/
inductive ExecServerError (SerdeError : Type) where
  | protocol (message : String)
  | json (e : SerdeError)
  deriving DecidableEq, Repr

variable {Rest SerdeError : Type} (fromSlice : Bytes → Except SerdeError (JSONRPCMessage Rest))

/-- What a push gives, and the decoder after it. -/
abbrev Pushed (Rest SerdeError : Type) : Type :=
  Except (ExecServerError SerdeError) (List (JSONRPCMessage Rest)) × MessageDecoder

/-- The messages of a record, each read on its own, up to the first that fails (`collect`). -/
def pushEach (read : Bytes → Except (ExecServerError SerdeError) (JSONRPCMessage Rest))
    (d : MessageDecoder) (plaintextRecord : Bytes) : Pushed Rest SerdeError :=
  match d.push plaintextRecord with
  | (.error e, d) => (.error (.protocol e.message), d)
  | (.ok messages, d) => (messages.mapM read, d)

/-- `JsonRpcMessageDecoder::push`; `fromSlice` is `serde_json::from_slice`. -/
def JsonRpcMessageDecoder.push (d : MessageDecoder) (plaintextRecord : Bytes) :
    Pushed Rest SerdeError :=
  pushEach (fun message => (fromSlice message).mapError .json) d plaintextRecord

/-! ## The size limit of the client -/

def maxHttpBodyDeltaBytes : ℕ := 1024 * 1024
def maxClientInboundRequestLen : ℕ := 8 * 1024
def maxClientInboundNotificationLen : ℕ := 2 * maxHttpBodyDeltaBytes

def streamedMethods : List String :=
  ["process/output", "process/exited", "process/closed", "http/request/bodyDelta"]

def clientInboundMessageExceededLimit (message : Except SerdeError (JSONRPCMessage Rest))
    (encodedLen maxRequestLen : ℕ) : Option ℕ :=
  let exceeded (maxLen : ℕ) := if maxLen < encodedLen then some maxLen else none
  match message with
  | .ok (.notification method _) =>
    exceeded (if method ∈ streamedMethods then maxClientInboundNotificationLen else maxRequestLen)
  | .ok (.request _) | .error _ => exceeded maxRequestLen
  | .ok (.response _) | .ok (.error _) => none

/-- One message of the client, with the size check. -/
def readChecked (encoded : Bytes) : Except (ExecServerError SerdeError) (JSONRPCMessage Rest) :=
  let message := fromSlice encoded
  match clientInboundMessageExceededLimit message encoded.length maxClientInboundRequestLen with
  | some maxLen => .error (.protocol
      s!"Noise relay JSON-RPC message exceeds maximum length of {maxLen} bytes")
  | none => message.mapError .json

namespace ClientJsonRpcMessageDecoder

def push (d : MessageDecoder) (plaintextRecord : Bytes) : Pushed Rest SerdeError :=
  if d.buffered.isEmpty ∧ plaintextRecord.length ≤ maxClientInboundRequestLen then
    JsonRpcMessageDecoder.push fromSlice d plaintextRecord
  else pushEach (readChecked fromSlice) d plaintextRecord

/-- The decoder without its fast path. -/
def pushChecked (d : MessageDecoder) (plaintextRecord : Bytes) : Pushed Rest SerdeError :=
  pushEach (readChecked fromSlice) d plaintextRecord

/-- What the pushes of some records give, each with the decoder after it. -/
def feed (push : MessageDecoder → Bytes → Pushed Rest SerdeError) (d : MessageDecoder) :
    List Bytes → List (Pushed Rest SerdeError)
  | [] => []
  | record :: records => push d record :: feed push (push d record).2 records

theorem clientInboundMessageExceededLimit_eq_none {message : Except SerdeError (JSONRPCMessage Rest)}
    {encodedLen : ℕ} (h : encodedLen ≤ maxClientInboundRequestLen) :
    clientInboundMessageExceededLimit message encodedLen maxClientInboundRequestLen = none := by
  have hle : maxClientInboundRequestLen ≤ maxClientInboundNotificationLen := by decide
  unfold clientInboundMessageExceededLimit
  split
  · exact if_neg (by split_ifs <;> omega)
  · exact if_neg (by omega)
  · exact if_neg (by omega)
  · rfl
  · rfl

theorem length_le_of_nextMessage {n : ℕ} {buffer message rest : Bytes} (hbuffer : buffer.length ≤ n)
    (h : nextMessage buffer = .item message rest) : message.length ≤ n ∧ rest.length ≤ n := by
  unfold nextMessage at h
  split at h
  · dsimp only at h
    split_ifs at h
    obtain ⟨rfl, rfl⟩ := Next.item.inj h
    simp only [length_cons, length_take, length_drop] at hbuffer ⊢
    omega
  · cases h

/-- A record is not shorter than the messages that it brings. -/
theorem length_le_of_push {d d' : MessageDecoder} {record : Bytes} {messages : List Bytes}
    (hd : d.buffered = []) (h : d.push record = (.ok messages, d')) :
    ∀ m ∈ messages, m.length ≤ record.length := by
  unfold MessageDecoder.push at h
  rw [hd, nil_append] at h
  split_ifs at h
  · cases (Prod.mk.inj h).1
  dsimp only at h
  split at h
  · cases (Prod.mk.inj h).1
  rename_i hdrain
  split_ifs at h
  · cases (Prod.mk.inj h).1
  obtain rfl := Except.ok.inj (Prod.mk.inj h).1
  exact drain_items (P := (·.length ≤ record.length))
    (fun _ _ _ hbuffer hnext => length_le_of_nextMessage hbuffer hnext) (Nat.le_refl _)
    (forall_mem_nil _) hdrain

theorem mapM_readChecked {messages : List Bytes}
    (h : ∀ m ∈ messages, m.length ≤ maxClientInboundRequestLen) :
    messages.mapM (readChecked fromSlice) =
      messages.mapM fun message => (fromSlice message).mapError .json := by
  induction messages with
  | nil => rfl
  | cons m messages ih =>
    rw [mapM_cons, mapM_cons, ih fun m' hm' => h m' (mem_cons_of_mem m hm'), readChecked,
      clientInboundMessageExceededLimit_eq_none (h m mem_cons_self)]

/-- The fast path gives what the checked path gives. -/
theorem push_eq_pushChecked (d : MessageDecoder) (record : Bytes) :
    push fromSlice d record = pushChecked fromSlice d record := by
  unfold push pushChecked
  split_ifs with hfast
  · obtain ⟨hempty, hlength⟩ := hfast
    unfold JsonRpcMessageDecoder.push pushEach
    split
    · rfl
    · rename_i messages d' hpush
      have hshort := length_le_of_push (isEmpty_iff.1 hempty) hpush
      rw [mapM_readChecked fromSlice fun m hm => (hshort m hm).trans hlength]
  · rfl

/-- **The fast path is not seen.**  For every sequence of records, whatever the parser does with
a message, every push gives the messages or the error, and leaves the bytes in the buffer,
that the decoder without the fast path gives and leaves. -/
theorem feed_fastPath (d : MessageDecoder) (records : List Bytes) :
    feed (push fromSlice) d records = feed (pushChecked fromSlice) d records := by
  induction records generalizing d with
  | nil => rfl
  | cons record records ih =>
    rw [feed, feed, push_eq_pushChecked, ih]

end ClientJsonRpcMessageDecoder

end NoiseRelay
