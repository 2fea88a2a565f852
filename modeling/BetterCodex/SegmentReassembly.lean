/-
# Reassembly of segmented client messages

A client of remote control may send a long message in segments.  The reassembler keeps
at most one partial message for a client, and forwards a message when its last segment
arrives.
-/
import BetterCodex.Base64
import BetterCodex.JsonSize
import BetterCodex.SortedMap

namespace RemoteControl

open RustStr JsonSize List SortedMap Option

abbrev Bytes : Type := List UInt8

def reassembledMaxBytes : ℕ := 100 * 1024 * 1024
def segmentCountMax : ℕ := 1024
def segmentAssemblyMaxCount : ℕ := 128

/-! ## Envelopes -/

variable {Message : Type}

inductive ClientEvent (Message : Type) where
  | clientMessage (message : Message)
  | clientMessageChunk (segmentId segmentCount messageSizeBytes : ℕ) (messageChunkBase64 : Text)
  | ack (segmentId : Option ℕ)
  | ping
  | clientClosed

structure ClientEnvelope (Message : Type) where
  event : ClientEvent Message
  clientId : Text
  streamId : Option Text
  seqId : Option ℕ
  cursor : Option Text := none

structure ClientSegmentMetadata where
  seqId : ℕ
  segmentCount : ℕ
  messageSizeBytes : ℕ
  deriving DecidableEq, Repr

structure ClientSegmentAssembly where
  streamId : Text
  metadata : ClientSegmentMetadata
  raw : Bytes
  nextSegmentId : ℕ
  lastChunkSeenAt : ℕ
  deriving DecidableEq, Repr

structure ClientSegmentReassembler where
  assemblies : List (Text × ClientSegmentAssembly) := []
  deriving DecidableEq, Repr

inductive ClientSegmentObservation (Message : Type) where
  | forward (envelope : ClientEnvelope Message)
  | pending
  | dropped

/-! ## Assemblies -/

/-- `decode_slice`: the bytes must fit into the room. -/
def decodeSlice (chunk : Text) (room : ℕ) : Option Bytes :=
  (Base64.standard.decode chunk).filter fun bytes => bytes.length ≤ room

/-- `AssemblyUpdate`, with the assembly as it is left. -/
inductive AssemblyUpdate (Message : Type) where
  | pending (assembly : ClientSegmentAssembly)
  | ignore
  | drop
  | complete (message : Message)

/-- An assembly at the start of a message. -/
def ClientSegmentAssembly.new (streamId : Text) (metadata : ClientSegmentMetadata) (now : ℕ) :
    ClientSegmentAssembly where
  streamId
  metadata
  raw := []
  nextSegmentId := 0
  lastChunkSeenAt := now

/-- What a segment that passed the checks does to the assembly of its client. -/
def ClientSegmentAssembly.update (parse : Bytes → Option Message) (a : ClientSegmentAssembly)
    (metadata : ClientSegmentMetadata) (segmentId : ℕ) (chunk : Text) (now : ℕ) :
    AssemblyUpdate Message :=
  if metadata.seqId < a.metadata.seqId then .ignore
  else if a.metadata ≠ metadata then .drop
  else if segmentId < a.nextSegmentId then .pending a
  else if segmentId ≠ a.nextSegmentId then .drop
  else
    let chunkStart := a.raw.length
    let chunkEnd := min metadata.messageSizeBytes
      (chunkStart + Base64.decodedLenEstimate (utf8Len chunk))
    match decodeSlice chunk (chunkEnd - chunkStart) with
    | none => .drop
    | some bytes =>
      let a := { a with
        raw := a.raw ++ bytes
        nextSegmentId := a.nextSegmentId + 1
        lastChunkSeenAt := now }
      if a.nextSegmentId < metadata.segmentCount then .pending a
      else if a.raw.length ≠ metadata.messageSizeBytes then .drop
      else
        match parse a.raw with
        | some message => .complete message
        | none => .drop

namespace ClientSegmentReassembler

variable (r : ClientSegmentReassembler)

def shouldIgnoreChunk (clientId streamId : Text) (seqId segmentId : ℕ) : Bool :=
  (get clientId r.assemblies).any fun a =>
    a.streamId = streamId ∧
      (seqId < a.metadata.seqId ∨ seqId = a.metadata.seqId ∧ segmentId < a.nextSegmentId)

def removeAssembly (clientId streamId : Text) :
    ClientSegmentReassembler :=
  if (get clientId r.assemblies).any (·.streamId = streamId) then
    { assemblies := erase clientId r.assemblies }
  else r

/-- The oldest of two entries, `min_by_key`; `place` is the place of a client in the order
of the hash map. -/
def older (place : Text → ℕ) (e e' : Text × ClientSegmentAssembly) : Text × ClientSegmentAssembly :=
  if toLex (e'.2.lastChunkSeenAt, place e'.1) < toLex (e.2.lastChunkSeenAt, place e.1) then e' else e

def evictAssembliesIfFull (place : Text → ℕ) : ℕ → ClientSegmentReassembler → ClientSegmentReassembler
  | 0, r => r
  | fuel + 1, r =>
    match r.assemblies with
    | [] => r
    | e :: rest =>
      if segmentAssemblyMaxCount ≤ (e :: rest).length then
        evictAssembliesIfFull place fuel
          { assemblies := erase (rest.foldl (older place) e).1 r.assemblies }
      else r

/-- A new assembly for the client, unless it has one of this stream. -/
def openAssembly (place : Text → ℕ) (clientId streamId : Text)
    (metadata : ClientSegmentMetadata) (now : ℕ) : ClientSegmentReassembler :=
  match get clientId r.assemblies with
  | some a =>
    if a.streamId ≠ streamId then
      { assemblies := insert clientId (.new streamId metadata now) r.assemblies }
    else r
  | none =>
    { assemblies := insert clientId (.new streamId metadata now)
        (r.evictAssembliesIfFull place r.assemblies.length).assemblies }

/-- The checks of a segment. -/
def InvalidSegment (segmentId segmentCount messageSizeBytes : ℕ) (chunk : Text) : Prop :=
  segmentCount = 0 ∨ segmentCountMax < segmentCount ∨ segmentCount ≤ segmentId ∨
    messageSizeBytes = 0 ∨ reassembledMaxBytes < messageSizeBytes ∨ chunk = []

instance (segmentId segmentCount messageSizeBytes : ℕ) (chunk : Text) :
    Decidable (InvalidSegment segmentId segmentCount messageSizeBytes chunk) :=
  inferInstanceAs (Decidable (_ ∨ _))

/-- A segment that passed the checks goes to the assembly of its client. -/
def accept (parse : Bytes → Option Message) (r : ClientSegmentReassembler)
    (envelope : ClientEnvelope Message) (streamId : Text) (metadata : ClientSegmentMetadata)
    (segmentId : ℕ) (chunk : Text) (now : ℕ) :
    ClientSegmentReassembler × ClientSegmentObservation Message :=
  match get envelope.clientId r.assemblies with
  | none => (r, .dropped)
  | some a =>
    match a.update parse metadata segmentId chunk now with
    | .pending a =>
      ({ assemblies := insert envelope.clientId a r.assemblies }, .pending)
    | .ignore => (r, .dropped)
    | .drop => (r.removeAssembly envelope.clientId streamId, .dropped)
    | .complete message =>
      (r.removeAssembly envelope.clientId streamId,
        .forward { envelope with event := .clientMessage message })

/-- `observe`; `now` and the order of the hash map are passed in. -/
def observe (parse : Bytes → Option Message) (place : Text → ℕ) (now : ℕ)
    (r : ClientSegmentReassembler) (envelope : ClientEnvelope Message) :
    ClientSegmentReassembler × ClientSegmentObservation Message :=
  match envelope.event with
  | .clientMessageChunk segmentId segmentCount messageSizeBytes chunk =>
    match envelope.seqId, envelope.streamId with
    | some seqId, some streamId =>
      let metadata : ClientSegmentMetadata := { seqId, segmentCount, messageSizeBytes }
      if r.shouldIgnoreChunk envelope.clientId streamId seqId segmentId then (r, .dropped)
      else if InvalidSegment segmentId segmentCount messageSizeBytes chunk then
        (r.removeAssembly envelope.clientId streamId, .dropped)
      else
        (r.openAssembly place envelope.clientId streamId metadata now).accept parse envelope streamId
          metadata segmentId chunk now
    | _, _ => (r, .dropped)
  | _ => (r, .forward envelope)

def invalidateStream (clientId streamId : Text) :
    ClientSegmentReassembler := r.removeAssembly clientId streamId

def invalidateClient (clientId : Text) : ClientSegmentReassembler :=
  { assemblies := erase clientId r.assemblies }

end ClientSegmentReassembler

/-! ## Runs -/

/-- What happens to a reassembler. -/
inductive Op (Message : Type) where
  | observe (place : Text → ℕ) (now : ℕ) (envelope : ClientEnvelope Message)
  | invalidateStream (clientId streamId : Text)
  | invalidateClient (clientId : Text)

/-- One operation. -/
def step (parse : Bytes → Option Message) (r : ClientSegmentReassembler) :
    Op Message → ClientSegmentReassembler
  | .observe place now envelope => (r.observe parse place now envelope).1
  | .invalidateStream clientId streamId => r.invalidateStream clientId streamId
  | .invalidateClient clientId => r.invalidateClient clientId

/-- Any number of operations. -/
def run (parse : Bytes → Option Message) (ops : List (Op Message)) : ClientSegmentReassembler :=
  ops.foldl (step parse) {}

/-- The envelopes that were observed, in order. -/
def observed (ops : List (Op Message)) : List (ClientEnvelope Message) :=
  ops.filterMap fun
    | .observe _ _ envelope => some envelope
    | _ => none

/-! ## Segments of one message -/

/-- The bytes of a segment. -/
def ClientEnvelope.segmentBytes (envelope : ClientEnvelope Message) : Option Bytes :=
  match envelope.event with
  | .clientMessageChunk _ _ _ chunk => Base64.standard.decode chunk
  | _ => none

/-- Segment number `i` of the message of a client on a stream. -/
def IsSegment (clientId streamId : Text) (metadata : ClientSegmentMetadata) (i : ℕ)
    (envelope : ClientEnvelope Message) : Prop :=
  envelope.clientId = clientId ∧ envelope.streamId = some streamId ∧
    envelope.seqId = some metadata.seqId ∧
    ∃ chunk, envelope.event =
      .clientMessageChunk i metadata.segmentCount metadata.messageSizeBytes chunk

/-- The first segments of one message were observed in order, and these are their bytes. -/
structure Segments (history : List (ClientEnvelope Message)) (clientId streamId : Text)
    (metadata : ClientSegmentMetadata) (segments : List (ClientEnvelope Message)) (raw : Bytes) :
    Prop where
  observed : segments.Sublist history
  numbered : ∀ i e, segments[i]? = some e → IsSegment clientId streamId metadata i e
  decoded : ∃ parts : List Bytes, segments.map ClientEnvelope.segmentBytes = parts.map some ∧ raw = parts.flatten

section
variable {history : List (ClientEnvelope Message)} {clientId streamId : Text}
  {metadata : ClientSegmentMetadata} {segments : List (ClientEnvelope Message)} {raw : Bytes}

theorem segments_nil : Segments history clientId streamId metadata [] [] where
  observed := nil_sublist _
  numbered _ _ h := nomatch h
  decoded := ⟨[], rfl, rfl⟩

theorem Segments.mono (h : Segments history clientId streamId metadata segments raw)
    (later : List (ClientEnvelope Message)) :
    Segments (history ++ later) clientId streamId metadata segments raw where
  observed := h.observed.trans (sublist_append_left history later)
  numbered := h.numbered
  decoded := h.decoded

/-- One more segment. -/
theorem Segments.append (h : Segments history clientId streamId metadata segments raw)
    {envelope : ClientEnvelope Message} {bytes : Bytes}
    (hsegment : IsSegment clientId streamId metadata segments.length envelope)
    (hbytes : envelope.segmentBytes = some bytes) :
    Segments (history ++ [envelope]) clientId streamId metadata (segments ++ [envelope])
      (raw ++ bytes) where
  observed := h.observed.append (List.Sublist.refl _)
  numbered i e he := by
    rw [getElem?_append] at he
    split_ifs at he with hi
    · exact h.numbered i e he
    · obtain ⟨hlt, rfl⟩ := List.getElem?_eq_some_iff.1 he
      obtain rfl : i = segments.length := by
        rw [length_singleton] at hlt
        omega
      simpa using hsegment
  decoded := by
    obtain ⟨parts, hparts, rfl⟩ := h.decoded
    refine ⟨parts ++ [bytes], ?_, ?_⟩
    · rw [map_append, map_append, hparts, map_singleton, hbytes, map_singleton]
    · rw [flatten_append, flatten_singleton]

end

/-! ## The invariant -/

/-- The assembly of a client is made of segments that were observed in order. -/
def Collected (history : List (ClientEnvelope Message)) (r : ClientSegmentReassembler) : Prop :=
  ∀ clientId a, get clientId r.assemblies = some a →
    ∃ segments, Segments history clientId a.streamId a.metadata segments a.raw ∧
      segments.length = a.nextSegmentId ∧ a.raw.length ≤ a.metadata.messageSizeBytes

/-- Every assembly of the second was there in the first. -/
def Shrinks (r r' : ClientSegmentReassembler) : Prop :=
  ∀ clientId a, get clientId r'.assemblies = some a →
    get clientId r.assemblies = some a

theorem Collected.mono {history : List (ClientEnvelope Message)} {r r' : ClientSegmentReassembler}
    (h : Collected history r) (hshrinks : Shrinks r r') (later : List (ClientEnvelope Message)) :
    Collected (history ++ later) r' := by
  intro clientId a ha
  obtain ⟨segments, hsegments, hlength, hraw⟩ := h clientId a (hshrinks clientId a ha)
  exact ⟨segments, hsegments.mono later, hlength, hraw⟩

section
variable (r : ClientSegmentReassembler)

theorem shrinks_refl : Shrinks r r := fun _ _ h => h

theorem shrinks_erase (clientId : Text) :
    Shrinks r { assemblies := erase clientId r.assemblies } := by
  intro clientId' a ha
  rw [get_erase] at ha
  split_ifs at ha
  exact ha

open ClientSegmentReassembler

theorem shrinks_removeAssembly (clientId streamId : Text) :
    Shrinks r (r.removeAssembly clientId streamId) := by
  rw [removeAssembly]
  split_ifs
  · exact shrinks_erase r clientId
  · exact shrinks_refl r

theorem shrinks_evictAssembliesIfFull (place : Text → ℕ) (fuel : ℕ) :
    Shrinks r (r.evictAssembliesIfFull place fuel) := by
  induction fuel generalizing r with
  | zero => exact shrinks_refl r
  | succ fuel ih =>
    rw [evictAssembliesIfFull]
    split
    · exact shrinks_refl r
    · split_ifs
      · exact fun clientId a ha => shrinks_erase r _ clientId a (ih _ clientId a ha)
      · exact shrinks_refl r

/-- The assemblies afterwards are old ones, or the new one. -/
theorem get_openAssembly {place : Text → ℕ} {clientId streamId : Text}
    {metadata : ClientSegmentMetadata} {now : ℕ} {clientId' : Text} {a : ClientSegmentAssembly}
    (h : get clientId' (r.openAssembly place clientId streamId metadata now).assemblies = some a) :
    (get clientId' r.assemblies = some a ∧ (clientId' = clientId → a.streamId = streamId)) ∨
      clientId' = clientId ∧ a = .new streamId metadata now := by
  rw [openAssembly] at h
  cases hget : get clientId r.assemblies with
  | none =>
    rw [hget] at h
    rw [get_insert] at h
    split_ifs at h with hclient
    · exact Or.inr ⟨hclient, (some.inj h).symm⟩
    · exact Or.inl ⟨shrinks_evictAssembliesIfFull r place _ clientId' a h,
        fun heq => absurd heq hclient⟩
  | some a₀ =>
    rw [hget] at h
    dsimp only at h
    split_ifs at h with hstream
    · rw [get_insert] at h
      split_ifs at h with hclient
      · exact Or.inr ⟨hclient, (some.inj h).symm⟩
      · exact Or.inl ⟨h, fun heq => absurd heq hclient⟩
    · refine Or.inl ⟨h, ?_⟩
      rintro rfl
      rw [← some.inj (hget.symm.trans h)]
      exact not_not.1 hstream

end

theorem Collected.openAssembly {history : List (ClientEnvelope Message)}
    {r : ClientSegmentReassembler} (h : Collected history r) (place : Text → ℕ)
    (clientId streamId : Text) (metadata : ClientSegmentMetadata) (now : ℕ) :
    Collected history (r.openAssembly place clientId streamId metadata now) := by
  intro clientId' a ha
  rcases get_openAssembly r ha with ⟨ha, -⟩ | ⟨rfl, rfl⟩
  · exact h clientId' a ha
  · exact ⟨[], segments_nil, rfl, Nat.zero_le _⟩

/-! ## What a segment does -/

section
variable {parse : Bytes → Option Message} {a a' : ClientSegmentAssembly}
  {metadata : ClientSegmentMetadata} {segmentId : ℕ} {chunk : Text} {now : ℕ}

/-- The segment continues the message of the assembly, and these are its bytes. -/
structure Continues (a : ClientSegmentAssembly) (metadata : ClientSegmentMetadata) (segmentId : ℕ)
    (chunk : Text) (bytes : Bytes) : Prop where
  metadata_eq : a.metadata = metadata
  segmentId_eq : segmentId = a.nextSegmentId
  decode_eq : Base64.standard.decode chunk = some bytes
  fits : a.raw.length ≤ metadata.messageSizeBytes →
    (a.raw ++ bytes).length ≤ metadata.messageSizeBytes

theorem continues_of_decodeSlice {bytes : Bytes} (hmetadata : a.metadata = metadata)
    (hsegment : segmentId = a.nextSegmentId) (h : decodeSlice chunk (min metadata.messageSizeBytes
      (a.raw.length + Base64.decodedLenEstimate (utf8Len chunk)) - a.raw.length) = some bytes) :
    Continues a metadata segmentId chunk bytes := by
  obtain ⟨hdecode, hroom⟩ := filter_eq_some_iff.1 h
  refine ⟨hmetadata, hsegment, hdecode, fun hraw => ?_⟩
  have hroom := of_decide_eq_true hroom
  rw [length_append]
  omega

/-- An assembly that goes on is unchanged, or has one more segment. -/
theorem update_eq_pending (h : a.update parse metadata segmentId chunk now = .pending a') :
    a' = a ∨ ∃ bytes, Continues a metadata segmentId chunk bytes ∧
      a' = { a with
        raw := a.raw ++ bytes
        nextSegmentId := a.nextSegmentId + 1
        lastChunkSeenAt := now } := by
  rw [ClientSegmentAssembly.update] at h
  split_ifs at h with hseq hmetadata hold hnext
  · exact Or.inl (AssemblyUpdate.pending.inj h).symm
  · dsimp only at h
    split at h
    · cases h
    · rename_i bytes hdecode
      split_ifs at h
      · exact Or.inr ⟨bytes, continues_of_decodeSlice (not_not.1 hmetadata) (not_not.1 hnext) hdecode,
          (AssemblyUpdate.pending.inj h).symm⟩
      · split at h <;> cases h

/-- When the last segment completes the message. -/
theorem update_eq_complete {message : Message}
    (h : a.update parse metadata segmentId chunk now = .complete message) :
    ∃ bytes, Continues a metadata segmentId chunk bytes ∧
      metadata.segmentCount ≤ a.nextSegmentId + 1 ∧
      (a.raw ++ bytes).length = metadata.messageSizeBytes ∧
      parse (a.raw ++ bytes) = some message := by
  rw [ClientSegmentAssembly.update] at h
  split_ifs at h with hseq hmetadata hold hnext
  dsimp only at h
  split at h
  · cases h
  · rename_i bytes hdecode
    split_ifs at h with hcount hsize
    split at h
    · rename_i message' hparse
      cases h
      exact ⟨bytes, continues_of_decodeSlice (not_not.1 hmetadata) (not_not.1 hnext) hdecode,
        Nat.not_lt.1 hcount, not_not.1 hsize, hparse⟩
    · cases h

end

/-! ## Observations -/

/-- The envelope carries all segments of one message: `segments` were observed in order,
the last of them just now; they belong to one client, stream, sequence id, segment count
and size; their bytes together have that size and are the message. -/
structure Reassembled (parse : Bytes → Option Message) (history : List (ClientEnvelope Message))
    (last out : ClientEnvelope Message) (streamId : Text) (metadata : ClientSegmentMetadata)
    (segments : List (ClientEnvelope Message)) (raw : Bytes) (message : Message) : Prop where
  collected : Segments history last.clientId streamId metadata segments raw
  getLast_segments : segments.getLast? = some last
  length_segments : segments.length = metadata.segmentCount
  length_raw : raw.length = metadata.messageSizeBytes
  parsed : parse raw = some message
  out_eq : out = { last with event := .clientMessage message }

section
variable {parse : Bytes → Option Message} {history : List (ClientEnvelope Message)}
  {r : ClientSegmentReassembler} {envelope : ClientEnvelope Message}

/-- The expected segment continues the segments so far. -/
theorem Segments.continue {a : ClientSegmentAssembly} {metadata : ClientSegmentMetadata}
    {segmentId : ℕ} {chunk : Text} {bytes : Bytes} {segments : List (ClientEnvelope Message)}
    (h : Segments history envelope.clientId a.streamId a.metadata segments a.raw)
    (hlength : segments.length = a.nextSegmentId)
    (hsegment : IsSegment envelope.clientId a.streamId metadata segmentId envelope)
    (hevent : envelope.segmentBytes = Base64.standard.decode chunk)
    (hcontinues : Continues a metadata segmentId chunk bytes) :
    Segments (history ++ [envelope]) envelope.clientId a.streamId metadata (segments ++ [envelope])
      (a.raw ++ bytes) := by
  obtain ⟨rfl, rfl, hdecode, -⟩ := hcontinues
  exact h.append (hlength ▸ hsegment) (hevent.trans hdecode)

variable (parse) in
/-- An accepted segment is collected, and what it completes is reassembled. -/
theorem Collected.accept (h : Collected history r) {streamId : Text}
    {metadata : ClientSegmentMetadata} {segmentId : ℕ} {chunk : Text} (now : ℕ)
    (hstream : ∀ a, get envelope.clientId r.assemblies = some a → a.streamId = streamId)
    (hsegment : IsSegment envelope.clientId streamId metadata segmentId envelope)
    (hevent : envelope.segmentBytes = Base64.standard.decode chunk)
    (hvalid : segmentId < metadata.segmentCount) :
    Collected (history ++ [envelope])
        (r.accept parse envelope streamId metadata segmentId chunk now).1 ∧
      ∀ out, (r.accept parse envelope streamId metadata segmentId chunk now).2 = .forward out →
        ∃ segments raw message, Reassembled parse (history ++ [envelope]) envelope out streamId
          metadata segments raw message := by
  have hold := h.mono (shrinks_refl r) [envelope]
  have hremoved := h.mono (shrinks_removeAssembly r envelope.clientId streamId) [envelope]
  rw [ClientSegmentReassembler.accept]
  cases hget : get envelope.clientId r.assemblies with
  | none => exact ⟨hold, nofun⟩
  | some a =>
    obtain rfl := hstream a hget
    obtain ⟨segments, hsegments, hlength, hraw⟩ := h envelope.clientId a hget
    dsimp only
    cases hupdate : a.update parse metadata segmentId chunk now with
    | ignore => exact ⟨hold, nofun⟩
    | drop => exact ⟨hremoved, nofun⟩
    | pending a' =>
      refine ⟨fun clientId a₁ ha₁ => ?_, nofun⟩
      rw [get_insert] at ha₁
      split_ifs at ha₁ with hclient
      · obtain rfl := some.inj ha₁
        obtain rfl := hclient
        rcases update_eq_pending hupdate with rfl | ⟨bytes, hcontinues, rfl⟩
        · exact hold _ _ hget
        · have hnew := hsegments.continue hlength hsegment hevent hcontinues
          obtain ⟨rfl, rfl, -, hfits⟩ := hcontinues
          refine ⟨segments ++ [envelope], hnew, ?_, hfits hraw⟩
          rw [length_append, hlength]
          rfl
      · exact hold clientId a₁ ha₁
    | complete message =>
      refine ⟨hremoved, fun out hout => ?_⟩
      obtain ⟨bytes, hcontinues, hcount, hsize, hparse⟩ := update_eq_complete hupdate
      refine ⟨segments ++ [envelope], a.raw ++ bytes, message,
        hsegments.continue hlength hsegment hevent hcontinues, ?_, ?_, hsize, hparse, ?_⟩
      · rw [getLast?_append, getLast?_singleton, some_or]
      · have := hcontinues.segmentId_eq
        rw [length_append, hlength, length_singleton]
        omega
      · exact (ClientSegmentObservation.forward.inj hout).symm

/-- One observation keeps the invariant; what it forwards is the envelope itself or a
reassembled message. -/
theorem Collected.observe (h : Collected history r) (place : Text → ℕ) (now : ℕ)
    (envelope : ClientEnvelope Message) :
    Collected (history ++ [envelope]) (r.observe parse place now envelope).1 ∧
      ∀ out, (r.observe parse place now envelope).2 = .forward out →
        (out = envelope ∧ ∀ segmentId segmentCount size chunk,
          envelope.event ≠ .clientMessageChunk segmentId segmentCount size chunk) ∨
        ∃ streamId metadata segments raw message, Reassembled parse (history ++ [envelope]) envelope
          out streamId metadata segments raw message := by
  have hold := h.mono (shrinks_refl r) [envelope]
  rw [ClientSegmentReassembler.observe]
  cases hevent : envelope.event with
  | clientMessageChunk segmentId segmentCount messageSizeBytes chunk =>
    cases hseq : envelope.seqId with
    | none => exact ⟨hold, nofun⟩
    | some seqId =>
      cases hstream : envelope.streamId with
      | none => exact ⟨hold, nofun⟩
      | some streamId =>
        dsimp only
        split_ifs with hignore hinvalid
        · exact ⟨hold, nofun⟩
        · exact ⟨h.mono (shrinks_removeAssembly r envelope.clientId streamId) [envelope], nofun⟩
        · have hbytes : envelope.segmentBytes = Base64.standard.decode chunk := by
            rw [ClientEnvelope.segmentBytes, hevent]
          have hvalid : segmentId < segmentCount := by
            rw [ClientSegmentReassembler.InvalidSegment] at hinvalid
            omega
          have hsegment : IsSegment envelope.clientId streamId
              { seqId, segmentCount, messageSizeBytes } segmentId envelope :=
            ⟨rfl, hstream, hseq, chunk, hevent⟩
          have hopen := h.openAssembly place envelope.clientId streamId
            { seqId, segmentCount, messageSizeBytes } now
          have hstreams : ∀ a, get envelope.clientId (r.openAssembly place envelope.clientId
              streamId { seqId, segmentCount, messageSizeBytes } now).assemblies = some a →
              a.streamId = streamId := by
            intro a ha
            rcases get_openAssembly r ha with ⟨-, ha⟩ | ⟨-, rfl⟩
            · exact ha rfl
            · rfl
          obtain ⟨hcollected, hforward⟩ := hopen.accept parse now hstreams hsegment hbytes hvalid
          refine ⟨hcollected, fun out hout => Or.inr ?_⟩
          obtain ⟨segments, raw, message, hout⟩ := hforward out hout
          exact ⟨streamId, _, segments, raw, message, hout⟩
  | clientMessage _ | ack _ | ping | clientClosed =>
    refine ⟨hold, fun out hout => Or.inl ⟨?_, nofun⟩⟩
    exact (ClientSegmentObservation.forward.inj hout).symm

end

/-- Every operation keeps the invariant. -/
theorem collected_step {parse : Bytes → Option Message} {ops : List (Op Message)}
    {r : ClientSegmentReassembler} (h : Collected (observed ops) r) (op : Op Message) :
    Collected (observed (ops ++ [op])) (step parse r op) := by
  have hobserved : observed (ops ++ [op]) = observed ops ++ observed [op] :=
    filterMap_append
  rw [hobserved]
  cases op with
  | observe place now envelope => exact (h.observe place now envelope).1
  | invalidateStream clientId streamId =>
    exact h.mono (shrinks_removeAssembly r clientId streamId) []
  | invalidateClient clientId => exact h.mono (shrinks_erase r clientId) []

theorem collected_run (parse : Bytes → Option Message) (ops : List (Op Message)) :
    Collected (observed ops) (run parse ops) := by
  rw [run]
  induction ops using List.reverseRecOn with
  | nil => exact fun clientId a h => nomatch h
  | append_singleton ops op ih =>
    rw [foldl_append]
    exact collected_step ih op

/-- **Messages are never mixed.**  After any run, what an observation forwards is the
envelope itself, if it is not a segment; or else there are envelopes that were observed in
this order, the segments 0, 1, …, n - 1 of one client, stream, sequence id, segment count n
and size, whose decoded bytes in order have that size and are the forwarded message. -/
theorem forwarded_is_reassembled (parse : Bytes → Option Message) (ops : List (Op Message))
    (place : Text → ℕ) (now : ℕ) (envelope out : ClientEnvelope Message)
    (hout : ((run parse ops).observe parse place now envelope).2 = .forward out) :
    (out = envelope ∧ ∀ segmentId segmentCount size chunk,
        envelope.event ≠ .clientMessageChunk segmentId segmentCount size chunk) ∨
      ∃ (streamId : Text) (metadata : ClientSegmentMetadata)
        (segments : List (ClientEnvelope Message)) (raw : Bytes) (message : Message),
        segments.Sublist (observed ops ++ [envelope]) ∧ segments.getLast? = some envelope ∧
        segments.length = metadata.segmentCount ∧
        (∀ i e, segments[i]? = some e → IsSegment envelope.clientId streamId metadata i e) ∧
        (∃ parts : List Bytes, segments.map ClientEnvelope.segmentBytes = parts.map some ∧
          raw = parts.flatten) ∧
        raw.length = metadata.messageSizeBytes ∧ parse raw = some message ∧
        out = { envelope with event := .clientMessage message } := by
  rcases ((collected_run parse ops).observe place now envelope).2 out hout with
    hplain | ⟨streamId, metadata, segments, raw, message, h⟩
  · exact Or.inl hplain
  · exact Or.inr ⟨streamId, metadata, segments, raw, message, h.collected.observed,
      h.getLast_segments, h.length_segments, h.collected.numbered, h.collected.decoded, h.length_raw,
      h.parsed, h.out_eq⟩

/-- A segment of a message of four bytes in two segments. -/
def sampleSegment (client : Char) (i : ℕ) (text : String) : ClientEnvelope Bytes where
  event := .clientMessageChunk i 2 4 text.toList
  clientId := [client]
  streamId := some ['s']
  seqId := some 7

/-- The first segment, and the first segment of another client. -/
def sampleOps : List (Op Bytes) :=
  [.observe (fun _ => 0) 0 (sampleSegment 'a' 0 "aGk="),
    .observe (fun _ => 0) 1 (sampleSegment 'b' 0 "aGkh")]

theorem forwarded_is_reassembled_sample :
    ((run some sampleOps).observe some (fun _ => 0) 2 (sampleSegment 'a' 1 "ISE=")).2 =
        .forward { sampleSegment 'a' 1 "ISE=" with event := .clientMessage [104, 105, 33, 33] } ∧
      ∃ segments : List (ClientEnvelope Bytes),
        segments.Sublist (observed sampleOps ++ [sampleSegment 'a' 1 "ISE="]) ∧
        segments.getLast? = some (sampleSegment 'a' 1 "ISE=") := by
  refine ⟨rfl, ?_⟩
  rcases forwarded_is_reassembled some sampleOps (fun _ => 0) 2 (sampleSegment 'a' 1 "ISE=") _ rfl
    with ⟨-, hchunk⟩ | ⟨_, _, segments, _, _, hsublist, hlast, _⟩
  · exact absurd rfl (hchunk 1 2 4 "ISE=".toList)
  · exact ⟨segments, hsublist, hlast⟩

end RemoteControl
