/-
# Segments of server messages

An envelope with a long message is cut into envelopes with a chunk of the message each.  The size of
the chunks is found by trying: with two segments, or as many as the target size asks for, and then
with more and more of them.
-/
import BetterCodex.Chunking
import BetterCodex.OutboundBuffer

namespace RemoteControl

open RustStr JsonSize Chunking List

variable {Outgoing : Type}

def segmentTargetBytes : ℕ := 100 * 1024
def segmentMaxBytes : ℕ := 150 * 1024

/-! ## Serialisation -/

/-- What `serde_json` makes of outgoing messages: the text of a message, or an error; and the error
message that is sent for a response without a text. -/
structure OutgoingJson (Outgoing : Type) where
  toVec : Outgoing → Except Text Bytes
  toVec_ne_nil : ∀ message raw, toVec message = .ok raw → raw ≠ []
  responseSerializationError : Outgoing → Text → Option Outgoing

variable (json : OutgoingJson Outgoing)

/-- The sizes of the fields of an event. -/
def ServerEvent.fieldSizes : ServerEvent Outgoing → Except Text (List ℕ)
  | .serverMessage message => do
    let raw ← json.toVec message
    return [jsonField "type".toList (jsonString "server_message".toList),
      jsonField "message".toList raw.length]
  | .serverMessageChunk segmentId segmentCount messageSizeBytes messageChunkBase64 =>
    .ok [jsonField "type".toList (jsonString "server_message_chunk".toList),
      jsonField "segment_id".toList (jsonNat segmentId),
      jsonField "segment_count".toList (jsonNat segmentCount),
      jsonField "message_size_bytes".toList (jsonNat messageSizeBytes),
      jsonField "message_chunk_base64".toList (jsonString messageChunkBase64)]
  | .ack => .ok [jsonField "type".toList (jsonString "ack".toList)]
  | .pong .active => .ok [jsonField "type".toList (jsonString "pong".toList),
      jsonField "status".toList (jsonString "active".toList)]
  | .pong .unknown => .ok [jsonField "type".toList (jsonString "pong".toList),
      jsonField "status".toList (jsonString "unknown".toList)]

variable (e : ServerEnvelope Outgoing)

def ServerEnvelope.serializedLen : Except Text ℕ := do
  let event ← e.event.fieldSizes json
  return jsonObject (event ++ [jsonField "client_id".toList (jsonString e.clientId),
    jsonField "stream_id".toList (jsonString e.streamId),
    jsonField "seq_id".toList (jsonNat e.seqId)])

def buildChunkEnvelope (segmentId segmentCount messageSizeBytes : ℕ)
    (chunk : Bytes) : Except Text (ServerEnvelope Outgoing) :=
  if segmentCountMax < segmentCount then
    .error "remote-control segment count exceeds maximum".toList
  else .ok { e with event :=
    .serverMessageChunk segmentId segmentCount messageSizeBytes (Base64.standard.encode chunk) }

def serializedChunkLen
    (segmentId segmentCount messageSizeBytes : ℕ) (chunk : Bytes) : Except Text ℕ := do
  let part ← buildChunkEnvelope e segmentId segmentCount messageSizeBytes chunk
  part.serializedLen json

/-! ## The search -/

/-- `segments_fit`: every chunk of this size makes an envelope within the limit. -/
def segmentsFit (raw : Bytes) (chunkSize : ℕ) : Bool :=
  (chunks chunkSize raw).zipIdx.all fun chunk =>
    match serializedChunkLen json e chunk.2 (divCeil raw.length chunkSize) raw.length chunk.1 with
    | .error _ => false
    | .ok size => size ≤ segmentMaxBytes

/-- The envelopes of the chunks of a size. -/
def cut (raw : Bytes) (chunkSize : ℕ) :
    Except Text (List (ServerEnvelope Outgoing)) :=
  (chunks chunkSize raw).zipIdx.mapM fun chunk =>
    buildChunkEnvelope e chunk.2 (divCeil raw.length chunkSize) raw.length chunk.1

/-- The size of the chunks of about so many segments. -/
def chunkSizeFor (messageSizeBytes segmentCount : ℕ) : ℕ :=
  max 1 (divCeil messageSizeBytes segmentCount)

/-- The number of segments that is tried after a size that does not fit. -/
def nextSegmentCount (messageSizeBytes chunkSize : ℕ) : ℕ :=
  let next := divCeil messageSizeBytes chunkSize + 1
  if chunkSizeFor messageSizeBytes next = chunkSize then messageSizeBytes else next

/-- The loop of `split_server_envelope_for_transport`; `none` if it takes more rounds than this. -/
def splitLoop (json : OutgoingJson Outgoing) (e : ServerEnvelope Outgoing) (raw : Bytes) :
    ℕ → ℕ → Option (Except Text (List (ServerEnvelope Outgoing)))
  | 0, _ => none
  | rounds + 1, segmentCount =>
    let chunkSize := chunkSizeFor raw.length segmentCount
    if segmentsFit json e raw chunkSize then some (cut e raw chunkSize)
    else if chunkSize = 1 then some (.ok [])
    else splitLoop json e raw rounds (nextSegmentCount raw.length chunkSize)

/-- `split_server_envelope_for_transport`, with at most so many rounds of its loop. -/
def splitServerEnvelopeForTransport (rounds : ℕ)
    (e : ServerEnvelope Outgoing) : Option (Except Text (List (ServerEnvelope Outgoing))) :=
  match e.event with
  | .serverMessage message =>
    match e.serializedLen json with
    | .error err =>
      match json.responseSerializationError message err with
      | none => some (.error err)
      | some error => some (.ok [{ e with event := .serverMessage error }])
    | .ok envelopeSizeBytes =>
      if envelopeSizeBytes ≤ segmentMaxBytes then some (.ok [e])
      else
        match json.toVec message with
        | .error err => some (.error err)
        | .ok raw =>
          if reassembledMaxBytes < raw.length then some (.ok [])
          else
            let minimalSegmentCount := min (max raw.length 1) segmentCountMax
            match serializedChunkLen json e 0 minimalSegmentCount raw.length (raw.take 1) with
            | .error err => some (.error err)
            | .ok size =>
              if segmentMaxBytes < size then some (.ok [])
              else splitLoop json e raw rounds (max 2 (divCeil raw.length segmentTargetBytes))
  | _ => some (.ok [e])

/-! ## The sizes that are tried -/

/-- The sizes that the search tries from a number of segments on, for a message of a length. -/
def sizesFrom (messageSizeBytes : ℕ) : ℕ → ℕ → List ℕ
  | 0, _ => []
  | rounds + 1, segmentCount =>
    let chunkSize := chunkSizeFor messageSizeBytes segmentCount
    if chunkSize = 1 then [1]
    else chunkSize ::
      sizesFrom messageSizeBytes rounds (nextSegmentCount messageSizeBytes chunkSize)

/-- **The sizes that the search tries** for a message of a length.  They do not depend on the
envelope: the sizes of two segments, three, and so on, until one more segment does not make the
chunks smaller, and then single bytes. -/
def chunkSizes (messageSizeBytes : ℕ) : List ℕ :=
  sizesFrom messageSizeBytes (messageSizeBytes + 1)
    (max 2 (divCeil messageSizeBytes segmentTargetBytes))

theorem chunkSizeFor_pos (n k : ℕ) : 0 < chunkSizeFor n k := by
  unfold chunkSizeFor
  omega

/-- Each retry makes the chunks smaller, so the search ends. -/
theorem chunkSizeFor_next_lt {n c : ℕ} (hn : 0 < n) (hc : 1 < c) :
    chunkSizeFor n (nextSegmentCount n c) < c := by
  have hpos : 0 < divCeil n c := divCeil_pos hn (by omega)
  unfold nextSegmentCount
  dsimp only
  split_ifs with hjump
  · unfold chunkSizeFor
    rw [divCeil_self hn]
    omega
  · refine lt_of_le_of_ne ?_ hjump
    have hle : divCeil n (divCeil n c + 1) ≤ c := by
      rw [divCeil_le_iff (by omega)]
      have hcover := le_divCeil_mul (show 0 < c by omega) n
      rw [Nat.mul_comm] at hcover
      rw [Nat.mul_add]
      omega
    unfold chunkSizeFor
    omega

theorem chunkSizeFor_le {n k : ℕ} (hn : 0 < n) (hk : 0 < k) : chunkSizeFor n k ≤ n := by
  have hle : divCeil n k ≤ n := by
    rw [divCeil_le_iff hk]
    exact Nat.le_mul_of_pos_right n hk
  unfold chunkSizeFor
  omega

/-- More rounds than the size of the chunks change nothing. -/
theorem sizesFrom_eq {n : ℕ} (hn : 0 < n) {rounds rounds' k : ℕ}
    (hrounds : chunkSizeFor n k ≤ rounds) (hrounds' : chunkSizeFor n k ≤ rounds') :
    sizesFrom n rounds k = sizesFrom n rounds' k := by
  have hpos := chunkSizeFor_pos n k
  induction rounds generalizing rounds' k with
  | zero => omega
  | succ rounds ih =>
    obtain ⟨rounds', rfl⟩ : ∃ m, rounds' = m + 1 := ⟨rounds' - 1, by omega⟩
    rw [sizesFrom, sizesFrom]
    split_ifs with hone
    · rfl
    · have hlt := chunkSizeFor_next_lt hn (show 1 < chunkSizeFor n k by omega)
      have hrest := @ih rounds' (nextSegmentCount n (chunkSizeFor n k)) (by omega) (by omega)
        (chunkSizeFor_pos n _)
      rw [hrest]

/-- The first size that fits. -/
def firstFit (raw : Bytes) (sizes : List ℕ) : Except Text (List (ServerEnvelope Outgoing)) :=
  match sizes.find? (segmentsFit json e raw) with
  | none => .ok []
  | some chunkSize => cut e raw chunkSize

variable (json : OutgoingJson Outgoing) (e : ServerEnvelope Outgoing)

/-- **The search ends**, and takes the first of the sizes that fits. -/
theorem splitLoop_eq {raw : Bytes} (hraw : 0 < raw.length) {rounds k : ℕ}
    (hrounds : chunkSizeFor raw.length k ≤ rounds) :
    splitLoop json e raw rounds k = some (firstFit json e raw (sizesFrom raw.length rounds k)) := by
  have hpos := chunkSizeFor_pos raw.length k
  induction rounds generalizing k with
  | zero => omega
  | succ rounds ih =>
    rw [splitLoop, sizesFrom]
    by_cases hfit : segmentsFit json e raw (chunkSizeFor raw.length k)
    · rw [if_pos hfit]
      split_ifs with hone
      · rw [hone] at hfit ⊢
        rw [firstFit, find?_cons_of_pos hfit]
      · rw [firstFit, find?_cons_of_pos hfit]
    · rw [if_neg hfit]
      split_ifs with hone
      · rw [hone] at hfit
        rw [firstFit, find?_cons_of_neg hfit]
        rfl
      · have hlt := chunkSizeFor_next_lt hraw (show 1 < chunkSizeFor raw.length k by omega)
        rw [ih (by omega) (chunkSizeFor_pos _ _), firstFit, firstFit, find?_cons_of_neg hfit]

/-! ## The sizes of the envelopes -/

theorem escapedSize_letters : Base64.standard.letters.map escapedSize = replicate 64 1 := by
  decide +kernel

/-- A chunk as a JSON string: four letters for three bytes. -/
theorem jsonString_encode (chunk : Bytes) :
    jsonString (Base64.standard.encode chunk) = 4 * ((chunk.length + 2) / 3) + 2 := by
  have hone : (Base64.standard.encode chunk).map escapedSize =
      replicate (Base64.standard.encode chunk).length 1 := by
    refine eq_replicate_iff.2 ⟨length_map _, fun size hsize => ?_⟩
    obtain ⟨c, hc, rfl⟩ := mem_map.1 hsize
    rcases Base64.Alphabet.mem_encode hc with hpad | hletter
    · rw [← Option.some.inj hpad]
      rfl
    · have hsize := mem_map_of_mem (f := escapedSize) hletter
      rw [escapedSize_letters] at hsize
      exact eq_of_mem_replicate hsize
  rw [jsonString, hone, sum_replicate, smul_eq_mul, Nat.mul_one,
    Base64.Alphabet.length_encode (p := '=') rfl]
  omega

/-- What an envelope with a chunk takes without the chunk and the numbers of the segments. -/
def overhead (e : ServerEnvelope Outgoing) : ℕ :=
  146 + jsonString e.clientId + jsonString e.streamId + jsonNat e.seqId

/-- The size of an envelope with a chunk. -/
def chunkLen (e : ServerEnvelope Outgoing) (segmentId segmentCount messageSizeBytes length : ℕ) : ℕ :=
  overhead e + jsonNat segmentId + jsonNat segmentCount + jsonNat messageSizeBytes +
    4 * ((length + 2) / 3)

/-- The envelope of a chunk. -/
def chunkEnvelope (e : ServerEnvelope Outgoing) (segmentId segmentCount messageSizeBytes : ℕ)
    (chunk : Bytes) : ServerEnvelope Outgoing where
  event := .serverMessageChunk segmentId segmentCount messageSizeBytes (Base64.standard.encode chunk)
  clientId := e.clientId
  streamId := e.streamId
  seqId := e.seqId

theorem buildChunkEnvelope_eq {segmentCount : ℕ} (hcount : segmentCount ≤ segmentCountMax)
    (e : ServerEnvelope Outgoing) (segmentId messageSizeBytes : ℕ) (chunk : Bytes) :
    buildChunkEnvelope e segmentId segmentCount messageSizeBytes chunk =
      .ok (chunkEnvelope e segmentId segmentCount messageSizeBytes chunk) := by
  rw [buildChunkEnvelope, if_neg (not_lt.2 hcount)]
  rfl

/-- The length of a chunk envelope depends on the length of the chunk only. -/
theorem serializedLen_chunk (segmentId segmentCount messageSizeBytes : ℕ) (chunk : Bytes) :
    ServerEnvelope.serializedLen json (chunkEnvelope e segmentId segmentCount messageSizeBytes chunk) =
      .ok (chunkLen e segmentId segmentCount messageSizeBytes chunk.length) := by
  have hsizes : jsonString "type".toList = 6 ∧ jsonString "server_message_chunk".toList = 22 ∧
      jsonString "segment_id".toList = 12 ∧ jsonString "segment_count".toList = 15 ∧
      jsonString "message_size_bytes".toList = 20 ∧ jsonString "message_chunk_base64".toList = 22 ∧
      jsonString "client_id".toList = 11 ∧ jsonString "stream_id".toList = 11 ∧
      jsonString "seq_id".toList = 8 := by decide
  obtain ⟨h₁, h₂, h₃, h₄, h₅, h₆, h₇, h₈, h₉⟩ := hsizes
  refine congrArg Except.ok ?_
  simp only [jsonObject, jsonField, h₁, h₂, h₃, h₄, h₅, h₆, h₇, h₈, h₉, jsonString_encode, chunkLen,
    chunkEnvelope, overhead, cons_append, nil_append, sum_cons, sum_nil, length_cons,
    length_nil]
  omega

/-- The length of a message envelope. -/
theorem serializedLen_message {e : ServerEnvelope Outgoing} {message : Outgoing} {raw : Bytes}
    (hevent : e.event = .serverMessage message) (hraw : json.toVec message = .ok raw) :
    e.serializedLen json = .ok (overhead e - 74 + raw.length) := by
  have hsizes : jsonString "type".toList = 6 ∧ jsonString "server_message".toList = 16 ∧
      jsonString "message".toList = 9 ∧ jsonString "client_id".toList = 11 ∧
      jsonString "stream_id".toList = 11 ∧ jsonString "seq_id".toList = 8 := by decide
  obtain ⟨h₁, h₂, h₃, h₄, h₅, h₆⟩ := hsizes
  rw [ServerEnvelope.serializedLen, hevent, ServerEvent.fieldSizes, hraw]
  refine congrArg Except.ok ?_
  simp only [jsonObject, jsonField, h₁, h₂, h₃, h₄, h₅, h₆, overhead, cons_append,
    nil_append, sum_cons, sum_nil, length_cons, length_nil]
  omega

theorem serializedChunkLen_eq {segmentCount : ℕ} (hcount : segmentCount ≤ segmentCountMax)
    (segmentId messageSizeBytes : ℕ) (chunk : Bytes) :
    serializedChunkLen json e segmentId segmentCount messageSizeBytes chunk =
      .ok (chunkLen e segmentId segmentCount messageSizeBytes chunk.length) := by
  rw [serializedChunkLen, buildChunkEnvelope_eq hcount]
  exact serializedLen_chunk json e segmentId segmentCount messageSizeBytes chunk

/-- The chunks of a size fit: in numbers. -/
theorem segmentsFit_iff {raw : Bytes} (hraw : 0 < raw.length) {c : ℕ} (hc : 0 < c) :
    segmentsFit json e raw c = true ↔
      divCeil raw.length c ≤ segmentCountMax ∧ ∀ i < divCeil raw.length c,
        chunkLen e i (divCeil raw.length c) raw.length (min c (raw.length - i * c)) ≤
          segmentMaxBytes := by
  unfold segmentsFit
  rw [all_eq_true]
  constructor
  · intro hall
    have hfits : ∀ i < divCeil raw.length c, divCeil raw.length c ≤ segmentCountMax ∧
        chunkLen e i (divCeil raw.length c) raw.length (min c (raw.length - i * c)) ≤
          segmentMaxBytes := by
      intro i hi
      have hget : (chunks c raw)[i]? = some ((raw.drop (i * c)).take c) :=
        getElem?_chunks.2 ⟨hi, rfl⟩
      have hlen := length_chunk hget
      have hfit := hall ((raw.drop (i * c)).take c, i) (mem_zipIdx_iff_getElem?.2 hget)
      by_cases hcount : divCeil raw.length c ≤ segmentCountMax
      · refine ⟨hcount, ?_⟩
        rw [serializedChunkLen_eq json e hcount, hlen] at hfit
        exact of_decide_eq_true hfit
      · rw [serializedChunkLen, buildChunkEnvelope, if_pos (not_le.1 hcount)] at hfit
        cases hfit
    exact ⟨(hfits 0 (divCeil_pos hraw hc)).1, fun i hi => (hfits i hi).2⟩
  · rintro ⟨hcount, hfits⟩ ⟨chunk, i⟩ hmem
    have hget := mem_zipIdx_iff_getElem?.1 hmem
    dsimp only
    rw [serializedChunkLen_eq json e hcount, length_chunk hget]
    exact decide_eq_true (hfits i (getElem?_chunks.1 hget).1)

/-! ## What is returned -/

/-- The bytes that an envelope carries. -/
def payload (part : ServerEnvelope Outgoing) : Option Bytes :=
  match part.event with
  | .serverMessageChunk _ _ _ messageChunkBase64 => Base64.standard.decode messageChunkBase64
  | _ => none

/-- **A message in segments**: numbered chunks that declare one count and one size, fit, and make up
the message. -/
structure Segmented (json : OutgoingJson Outgoing) (e : ServerEnvelope Outgoing) (raw : Bytes)
    (parts : List (ServerEnvelope Outgoing)) : Prop where
  count : parts.length ≤ segmentCountMax
  numbered : ∀ (i : ℕ) (part : ServerEnvelope Outgoing), parts[i]? = some part → ∃ chunk : Text,
    part = ⟨.serverMessageChunk i parts.length raw.length chunk, e.clientId, e.streamId, e.seqId⟩
  fits : ∀ part ∈ parts, ∃ size, part.serializedLen json = .ok size ∧ size ≤ segmentMaxBytes
  payloads : ∃ pieces, parts.mapM payload = some pieces ∧ pieces.flatten = raw

/-- The envelopes of a cut, chunk by chunk. -/
theorem cut_eq {c : ℕ} {raw : Bytes} (hcount : divCeil raw.length c ≤ segmentCountMax)
    (e : ServerEnvelope Outgoing) :
    cut e raw c = .ok ((chunks c raw).zipIdx.map fun chunk =>
      chunkEnvelope e chunk.2 (divCeil raw.length c) raw.length chunk.1) := by
  unfold cut
  have hbuild : (fun chunk : Bytes × ℕ =>
      buildChunkEnvelope e chunk.2 (divCeil raw.length c) raw.length chunk.1) =
        fun chunk => pure (chunkEnvelope e chunk.2 (divCeil raw.length c) raw.length chunk.1) := by
    funext chunk
    exact buildChunkEnvelope_eq hcount e chunk.2 raw.length chunk.1
  rw [hbuild, mapM_pure]
  rfl

/-- A cut that fits is the message in numbered chunks. -/
theorem segmented_cut {raw : Bytes} (hraw : 0 < raw.length) {c : ℕ} (hc : 0 < c)
    (hfit : segmentsFit json e raw c = true) :
    ∃ parts, cut e raw c = .ok parts ∧ parts ≠ [] ∧ Segmented json e raw parts := by
  obtain ⟨hcount, hfits⟩ := (segmentsFit_iff json e hraw hc).1 hfit
  have hlength : ((chunks c raw).zipIdx.map fun chunk =>
      chunkEnvelope e chunk.2 (divCeil raw.length c) raw.length chunk.1).length =
        divCeil raw.length c := by
    rw [length_map, length_zipIdx, length_chunks]
  refine ⟨_, cut_eq hcount e, ?_, ?_, ?_, ?_, ?_⟩
  · intro hnil
    have hpos := divCeil_pos hraw hc
    rw [hnil, length_nil] at hlength
    omega
  · rw [hlength]
    exact hcount
  · intro i part hpart
    rw [getElem?_map] at hpart
    obtain ⟨⟨chunk, j⟩, hget, rfl⟩ := Option.map_eq_some_iff.1 hpart
    have hj : j = i := by
      rw [getElem?_zipIdx, Option.map_eq_some_iff] at hget
      obtain ⟨_, -, heq⟩ := hget
      have := congrArg Prod.snd heq
      simpa using this.symm
    subst hj
    refine ⟨Base64.standard.encode chunk, ?_⟩
    rw [hlength]
    rfl
  · intro part hpart
    obtain ⟨⟨chunk, i⟩, hmem, rfl⟩ := mem_map.1 hpart
    have hget := mem_zipIdx_iff_getElem?.1 hmem
    refine ⟨_, serializedLen_chunk json e i _ _ chunk, ?_⟩
    rw [length_chunk hget]
    exact hfits i (getElem?_chunks.1 hget).1
  · refine ⟨chunks c raw, ?_, flatten_chunks hc raw⟩
    have hpayload : ∀ chunk : Bytes × ℕ,
        payload (chunkEnvelope e chunk.2 (divCeil raw.length c) raw.length chunk.1) =
          pure chunk.1 := by
      intro chunk
      exact Base64.Alphabet.decode_encode chunk.1
    rw [mapM_map]
    simp only [Function.comp_def, hpayload, mapM_pure]
    rw [zipIdx_map_fst]
    rfl

/-! ## Completeness -/

theorem jsonNat_le_iff {n k : ℕ} (hk : 0 < k) : jsonNat n ≤ k ↔ n < 10 ^ k :=
  Nat.length_toDigits_le_iff (by decide) hk

theorem lt_jsonNat_iff {n k : ℕ} (hk : 0 < k) : k < jsonNat n ↔ 10 ^ k ≤ n := by
  rw [← not_le, jsonNat_le_iff hk, not_lt]

theorem jsonNat_pos (n : ℕ) : 0 < jsonNat n := Nat.length_toDigits_pos

/-- **The first check drops nothing.**  Where the chunks of some size fit, and the whole message does
not, one byte fits as well. -/
theorem minimal_fits {e : ServerEnvelope Outgoing} {n c : ℕ} (hn : 0 < n) (hc : 0 < c)
    (hlarge : segmentMaxBytes < overhead e - 74 + n) (hfits : ∀ i < divCeil n c,
      chunkLen e i (divCeil n c) n (min c (n - i * c)) ≤ segmentMaxBytes) :
    chunkLen e 0 (min (max n 1) segmentCountMax) n 1 ≤ segmentMaxBytes := by
  by_contra hminimal
  have hpos := divCeil_pos hn hc
  have hcover := le_divCeil_mul hc n
  have hfirst := hfits 0 hpos
  have hlast := hfits (divCeil n c - 1) (by omega)
  have hrest : 0 < n - (divCeil n c - 1) * c := by
    have hlt : (divCeil n c - 1) * c < n := (lt_divCeil_iff hc n _).1 (by omega)
    omega
  have hzero : jsonNat 0 = 1 := by decide
  have hdigits : jsonNat (min (max n 1) segmentCountMax) ≤ 4 := by
    rw [jsonNat_le_iff (by decide)]
    have hmax : segmentCountMax < 10 ^ 4 := by decide
    omega
  have hoverhead : 146 ≤ overhead e := by
    unfold overhead
    omega
  have hs₁ := jsonNat_pos (divCeil n c)
  have hs₂ := jsonNat_pos (divCeil n c - 1)
  have hn₁ := jsonNat_pos n
  unfold chunkLen at hminimal hfirst hlast
  rw [Nat.zero_mul, Nat.sub_zero] at hfirst
  rw [hzero] at hminimal hfirst
  -- the chunks are at most three bytes long, and there are many of them
  have hsmall : min c n ≤ 3 := by omega
  have hlong : 81 ≤ n := by omega
  have hc₃ : c ≤ 3 := by omega
  have hmany : n ≤ divCeil n c * 3 := hcover.trans (Nat.mul_le_mul_left _ hc₃)
  have htwo : 2 ≤ jsonNat (divCeil n c) ∧ 2 ≤ jsonNat (divCeil n c - 1) := by
    constructor
    · exact (lt_jsonNat_iff (by decide)).2 (by omega)
    · exact (lt_jsonNat_iff (by decide)).2 (by omega)
  have hfour : 3 < jsonNat (min (max n 1) segmentCountMax) := by omega
  have hthousand : 1000 ≤ min (max n 1) segmentCountMax := (lt_jsonNat_iff (by decide)).1 hfour
  have hthree : 3 ≤ jsonNat (divCeil n c) ∧ 3 ≤ jsonNat (divCeil n c - 1) := by
    constructor
    · exact (lt_jsonNat_iff (by decide)).2 (by omega)
    · exact (lt_jsonNat_iff (by decide)).2 (by omega)
  omega

theorem pos_of_mem_sizesFrom {n rounds k c : ℕ} (h : c ∈ sizesFrom n rounds k) : 0 < c := by
  induction rounds generalizing k with
  | zero => cases h
  | succ rounds ih =>
    rw [sizesFrom] at h
    split_ifs at h with hone
    · rw [mem_singleton.1 h]
      decide
    · rcases mem_cons.1 h with rfl | h
      · exact chunkSizeFor_pos n k
      · exact ih h

theorem first_mem_chunkSizes (n : ℕ) :
    chunkSizeFor n (max 2 (divCeil n segmentTargetBytes)) ∈ chunkSizes n := by
  rw [chunkSizes, sizesFrom]
  split_ifs with hone
  · rw [hone]
    exact mem_singleton_self 1
  · exact mem_cons_self

/-- **Short ids.**  Where the ids take at most 16000 bytes, the first size that is tried fits. -/
theorem segmentsFit_of_short_ids {e : ServerEnvelope Outgoing} {raw : Bytes} (hpos : 0 < raw.length)
    (hle : raw.length ≤ reassembledMaxBytes) (hseq : e.seqId < 2 ^ 64)
    (hids : jsonString e.clientId + jsonString e.streamId ≤ 16000) :
    ∃ c ∈ chunkSizes raw.length, segmentsFit json e raw c = true := by
  refine ⟨_, first_mem_chunkSizes raw.length, ?_⟩
  rw [segmentsFit_iff json e hpos (chunkSizeFor_pos _ _)]
  have htarget : 0 < segmentTargetBytes := by decide
  have hcover := le_divCeil_mul htarget raw.length
  have hmost : divCeil raw.length segmentTargetBytes ≤ segmentCountMax :=
    (divCeil_le_iff htarget _ _).2 hle
  generalize hk : max 2 (divCeil raw.length segmentTargetBytes) = k
  have hkpos : 0 < k := by omega
  have hksize : raw.length ≤ segmentTargetBytes * k := by
    rw [Nat.mul_comm]
    exact hcover.trans (Nat.mul_le_mul_right _ (by omega))
  have hkcount : k ≤ segmentCountMax := by
    have htwo : 2 ≤ segmentCountMax := by decide
    omega
  -- the chunks are not longer than the target, and not more than the segments aimed at
  have hsize : chunkSizeFor raw.length k ≤ segmentTargetBytes :=
    max_le (by decide) ((divCeil_le_iff hkpos _ _).2 hksize)
  have hcount : divCeil raw.length (chunkSizeFor raw.length k) ≤ k := by
    rw [divCeil_le_iff (chunkSizeFor_pos _ _), Nat.mul_comm]
    exact (le_divCeil_mul hkpos _).trans (Nat.mul_le_mul_right _ (le_max_right _ _))
  refine ⟨hcount.trans hkcount, fun i hi => ?_⟩
  have hlimits : segmentTargetBytes = 102400 ∧ segmentMaxBytes = 153600 ∧ segmentCountMax = 1024 ∧
      reassembledMaxBytes = 104857600 := by decide
  have hi₄ : jsonNat i ≤ 4 := (jsonNat_le_iff (by decide)).2 (by omega)
  have hcount₄ : jsonNat (divCeil raw.length (chunkSizeFor raw.length k)) ≤ 4 :=
    (jsonNat_le_iff (by decide)).2 (by omega)
  have hlength₉ : jsonNat raw.length ≤ 9 := (jsonNat_le_iff (by decide)).2 (by omega)
  have hseq₂₀ : jsonNat e.seqId ≤ 20 := (jsonNat_le_iff (by decide)).2 (by omega)
  rw [chunkLen, overhead]
  omega

/-- What happens to a message that does not fit, for any number of rounds beyond its length. -/
theorem split_eq {e : ServerEnvelope Outgoing} {message : Outgoing} {raw : Bytes}
    (hevent : e.event = .serverMessage message) (hraw : json.toVec message = .ok raw)
    (hlarge : segmentMaxBytes < overhead e - 74 + raw.length) {rounds : ℕ}
    (hrounds : raw.length < rounds) :
    splitServerEnvelopeForTransport json rounds e =
      some (if reassembledMaxBytes < raw.length then .ok []
        else if segmentMaxBytes < chunkLen e 0 (min (max raw.length 1) segmentCountMax) raw.length 1
          then .ok []
        else firstFit json e raw (chunkSizes raw.length)) := by
  have hpos : 0 < raw.length := length_pos_of_ne_nil (json.toVec_ne_nil message raw hraw)
  have hfirst : (raw.take 1).length = 1 := by
    rw [length_take]
    omega
  have hstart : 0 < max 2 (divCeil raw.length segmentTargetBytes) := by omega
  have hsize := chunkSizeFor_le hpos hstart
  have hloop : splitLoop json e raw rounds (max 2 (divCeil raw.length segmentTargetBytes)) =
      some (firstFit json e raw (chunkSizes raw.length)) := by
    have hsizes : sizesFrom raw.length rounds (max 2 (divCeil raw.length segmentTargetBytes)) =
        chunkSizes raw.length := sizesFrom_eq hpos (by omega) (by omega)
    rw [splitLoop_eq json e hpos (by omega), hsizes]
  rw [splitServerEnvelopeForTransport, hevent]
  dsimp only
  rw [serializedLen_message json hevent hraw]
  dsimp only
  rw [if_neg (not_le.2 hlarge), hraw]
  dsimp only
  rw [serializedChunkLen_eq json e (Nat.min_le_right _ _), hfirst, hloop]
  dsimp only
  split_ifs
  · rfl
  · rfl
  · rfl

/-- **Splitting an envelope.**  For every message envelope beyond the segment limit the search ends;
what it returns, if anything, is the message in numbered segments within the limit; and for a message
within the reassembly limit it returns nothing only if no chunk size fits, exactly if some chunk size
that it tries fits where one fits at all.  With short ids it returns something. -/
theorem split_complete_iff (json : OutgoingJson Outgoing) {e : ServerEnvelope Outgoing}
    {message : Outgoing} {raw : Bytes} (hevent : e.event = .serverMessage message)
    (hraw : json.toVec message = .ok raw)
    (hlarge : ∃ size, e.serializedLen json = .ok size ∧ segmentMaxBytes < size) :
    ∃ parts, (∀ rounds, raw.length < rounds →
        splitServerEnvelopeForTransport json rounds e = some (.ok parts)) ∧
      (parts ≠ [] → Segmented json e raw parts) ∧
      (raw.length ≤ reassembledMaxBytes →
        ((parts = [] → ¬∃ c, 0 < c ∧ segmentsFit json e raw c = true) ↔
          ((∃ c, 0 < c ∧ segmentsFit json e raw c = true) →
            ∃ c ∈ chunkSizes raw.length, segmentsFit json e raw c = true))) ∧
      (raw.length ≤ reassembledMaxBytes → e.seqId < 2 ^ 64 →
        jsonString e.clientId + jsonString e.streamId ≤ 16000 → parts ≠ []) := by
  have hpos : 0 < raw.length := length_pos_of_ne_nil (json.toVec_ne_nil message raw hraw)
  have hshort := segmentsFit_of_short_ids (e := e) json hpos
  obtain ⟨size, hsize, hlarge⟩ := hlarge
  rw [serializedLen_message json hevent hraw] at hsize
  cases hsize
  by_cases hmax : reassembledMaxBytes < raw.length
  · refine ⟨[], fun rounds hrounds => ?_, fun hne => absurd rfl hne, fun hle => ?_, fun hle => ?_⟩
    · rw [split_eq json hevent hraw hlarge hrounds, if_pos hmax]
    · omega
    · omega
  · by_cases hminimal :
        segmentMaxBytes < chunkLen e 0 (min (max raw.length 1) segmentCountMax) raw.length 1
    · have hnone : ¬∃ c, 0 < c ∧ segmentsFit json e raw c = true := by
        rintro ⟨c, hc, hfit⟩
        have hfits := ((segmentsFit_iff json e hpos hc).1 hfit).2
        exact absurd (minimal_fits hpos hc hlarge hfits) (not_le.2 hminimal)
      refine ⟨[], fun rounds hrounds => ?_, fun hne => absurd rfl hne,
        fun _ => iff_of_true (fun _ => hnone) fun hsome => absurd hsome hnone,
        fun hle hseq hids _ => ?_⟩
      · rw [split_eq json hevent hraw hlarge hrounds, if_neg hmax, if_pos hminimal]
      · obtain ⟨c, hc, hfit⟩ := hshort hle hseq hids
        exact hnone ⟨c, pos_of_mem_sizesFrom hc, hfit⟩
    · have hsplit : ∀ rounds, raw.length < rounds → splitServerEnvelopeForTransport json rounds e =
          some (firstFit json e raw (chunkSizes raw.length)) := by
        intro rounds hrounds
        rw [split_eq json hevent hraw hlarge hrounds, if_neg hmax, if_neg hminimal]
      cases hfind : (chunkSizes raw.length).find? (segmentsFit json e raw) with
      | none =>
        have hfirst : firstFit json e raw (chunkSizes raw.length) = .ok [] := by
          rw [firstFit, hfind]
        rw [hfirst] at hsplit
        have hfail := find?_eq_none.1 hfind
        refine ⟨[], hsplit, fun hne => absurd rfl hne,
          fun _ => ⟨fun hnone hsome => absurd hsome (hnone rfl), fun htried _ hsome => ?_⟩,
          fun hle hseq hids _ => ?_⟩
        · obtain ⟨c, hc, hfit⟩ := htried hsome
          exact hfail c hc hfit
        · obtain ⟨c, hc, hfit⟩ := hshort hle hseq hids
          exact hfail c hc hfit
      | some c =>
        have hmem := mem_of_find?_eq_some hfind
        have hfit := find?_some hfind
        obtain ⟨parts, hcut, hne, hsegmented⟩ :=
          segmented_cut json e hpos (pos_of_mem_sizesFrom hmem) hfit
        have hfirst : firstFit json e raw (chunkSizes raw.length) = .ok parts := by
          rw [firstFit, hfind]
          exact hcut
        rw [hfirst] at hsplit
        exact ⟨parts, hsplit, fun _ => hsegmented,
          fun _ => iff_of_true (fun hnil => absurd hnil hne) fun _ => ⟨c, hmem, hfit⟩,
          fun _ _ _ => hne⟩

/-- A message of many bytes. -/
def manyBytes : OutgoingJson Unit where
  toVec _ := .ok (List.replicate 160000 120)
  toVec_ne_nil _ raw hraw := by
    intro hnil
    rw [hnil] at hraw
    cases hraw
  responseSerializationError _ _ := none

/-- The theorem at that message: it is cut into segments, and not dropped. -/
theorem split_many_bytes :
    ∃ parts, (∀ rounds, 160000 < rounds → splitServerEnvelopeForTransport manyBytes rounds
        ⟨.serverMessage (), ['c'], ['s'], 1⟩ = some (.ok parts)) ∧ parts ≠ [] ∧
      Segmented manyBytes ⟨.serverMessage (), ['c'], ['s'], 1⟩ (List.replicate 160000 120) parts := by
  have hlength : (List.replicate 160000 (120 : UInt8)).length = 160000 := length_replicate
  have hraw : manyBytes.toVec () = .ok (List.replicate 160000 120) := rfl
  have hsize := serializedLen_message manyBytes
    (show (⟨.serverMessage (), ['c'], ['s'], 1⟩ : ServerEnvelope Unit).event = .serverMessage ()
      from rfl) hraw
  obtain ⟨parts, hends, hsegmented, -, hshort⟩ := split_complete_iff manyBytes rfl hraw
    ⟨_, hsize, by rw [hlength]; decide⟩
  rw [hlength] at hends hshort
  have hne := hshort (by decide) (by decide) (by decide)
  exact ⟨parts, hends, hne, hsegmented hne⟩

/-- An envelope with a client id of 153437 bytes, and a message of 200 bytes. -/
def longIdEnvelope : ServerEnvelope Unit where
  event := .serverMessage ()
  clientId := List.replicate 153437 'c'
  streamId := ['s']
  seqId := 1

/-- A message of 200 bytes. -/
def twoHundredBytes : OutgoingJson Unit where
  toVec _ := .ok (List.replicate 200 120)
  toVec_ne_nil _ raw hraw := by
    intro hnil
    rw [hnil] at hraw
    cases hraw
  responseSerializationError _ _ := none

theorem overhead_longIdEnvelope : overhead longIdEnvelope = 153589 := by
  have hclient : jsonString longIdEnvelope.clientId = 153439 :=
    jsonString_replicate (by decide) 153437
  have hstream : jsonString longIdEnvelope.streamId = 3 := by decide
  have hseq : jsonNat longIdEnvelope.seqId = 1 := by decide
  rw [overhead, hclient, hstream, hseq]

/-- **A message that is dropped although it fits.**  Chunks of three bytes fit into 67 segments.  The
search stops making the chunks smaller at twelve bytes, goes on with single bytes, and those do not
fit, since there are more of them. -/
theorem long_ids_lose_a_message :
    splitServerEnvelopeForTransport twoHundredBytes 201 longIdEnvelope = some (.ok []) ∧
      segmentsFit twoHundredBytes longIdEnvelope (List.replicate 200 120) 3 = true := by
  have hoverhead := overhead_longIdEnvelope
  have hlength : (List.replicate 200 (120 : UInt8)).length = 200 := length_replicate
  have hlimit : segmentMaxBytes = 153600 := rfl
  constructor
  · have hraw : twoHundredBytes.toVec () = .ok (List.replicate 200 120) := rfl
    rw [split_eq twoHundredBytes (show longIdEnvelope.event = .serverMessage () from rfl) hraw
      (by rw [hlength]; omega) (by rw [hlength]; decide), hlength]
    have hminimal : chunkLen longIdEnvelope 0 (min (max 200 1) segmentCountMax) 200 1 = 153600 := by
      rw [chunkLen, hoverhead]
      decide
    have hnone : (chunkSizes 200).find?
        (segmentsFit twoHundredBytes longIdEnvelope (List.replicate 200 120)) = none := by
      rw [find?_eq_none]
      intro c hc hfit
      have hsizes : ∀ c ∈ chunkSizes 200, c = 1 ∨ 12 ≤ c := by decide
      have hpos : 0 < c := pos_of_mem_sizesFrom hc
      obtain ⟨-, hfits⟩ := (segmentsFit_iff twoHundredBytes longIdEnvelope (by rw [hlength]; decide)
        hpos).1 hfit
      rw [hlength] at hfits
      rcases hsizes c hc with rfl | hlarge
      · have hlast := hfits 150 (by decide)
        rw [chunkLen, hoverhead, show jsonNat 150 = 3 by decide,
          show jsonNat (divCeil 200 1) = 3 by decide, show jsonNat 200 = 3 by decide] at hlast
        omega
      · have hfirst := hfits 0 (divCeil_pos (by decide) hpos)
        rw [chunkLen, hoverhead, show jsonNat 200 = 3 by decide] at hfirst
        omega
    rw [if_neg (by decide), hminimal, if_neg (by rw [hlimit]; decide), firstFit, hnone]
  · rw [segmentsFit_iff twoHundredBytes longIdEnvelope (by rw [hlength]; decide) (by decide), hlength]
    refine ⟨by decide, ?_⟩
    unfold chunkLen
    rw [hoverhead]
    decide

end RemoteControl
