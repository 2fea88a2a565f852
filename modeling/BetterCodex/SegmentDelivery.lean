/-
# Delivery of segmented client messages

When do all segments of a message, in order, lead to the message?  Segments of other
clients may come between them, and may push out old assemblies when there are too many.
-/
import BetterCodex.SegmentReassembly

namespace RemoteControl

open RustStr JsonSize ClientSegmentReassembler List Option

variable {Message : Type}

/-! ## Other clients -/

/-- From one state to the next, only this client gets a new assembly. -/
structure Frame (clientId : Text) (r r' : ClientSegmentReassembler) : Prop where
  sorted : SortedMap.Sorted r.assemblies → SortedMap.Sorted r'.assemblies
  mem : ∀ e ∈ r'.assemblies, e ∈ r.assemblies ∨ e.1 = clientId

section
variable {clientId : Text} {r r' r'' : ClientSegmentReassembler}

theorem Frame.refl : Frame clientId r r := ⟨id, fun _ h => Or.inl h⟩

theorem Frame.trans (h : Frame clientId r r') (h' : Frame clientId r' r'') : Frame clientId r r'' :=
  ⟨h'.sorted ∘ h.sorted, fun e he => (h'.mem e he).elim (h.mem e) Or.inr⟩

theorem frame_erase (key : Text) :
    Frame clientId r { assemblies := SortedMap.erase key r.assemblies } :=
  ⟨fun h => h.erase, fun _ he => Or.inl (mem_of_mem_filter he)⟩

theorem frame_insert (a : ClientSegmentAssembly) :
    Frame clientId r { assemblies := SortedMap.insert clientId a r.assemblies } := by
  refine ⟨fun h => h.insert, fun e he => ?_⟩
  rcases SortedMap.mem_insert he with rfl | he
  · exact Or.inr rfl
  · exact Or.inl he

theorem frame_removeAssembly (key streamId : Text) :
    Frame clientId r (r.removeAssembly key streamId) := by
  rw [removeAssembly]
  split_ifs
  · exact frame_erase key
  · exact .refl

variable (place : Text → ℕ)

theorem frame_evictAssembliesIfFull (fuel : ℕ) :
    Frame clientId r (r.evictAssembliesIfFull place fuel) := by
  induction fuel generalizing r with
  | zero => exact .refl
  | succ fuel ih =>
    rw [evictAssembliesIfFull]
    split
    · exact .refl
    · split_ifs
      · exact (frame_erase _).trans ih
      · exact .refl

theorem frame_openAssembly (streamId : Text) (metadata : ClientSegmentMetadata) (now : ℕ) :
    Frame clientId r (r.openAssembly place clientId streamId metadata now) := by
  rw [openAssembly]
  split
  · split_ifs
    · exact frame_insert _
    · exact .refl
  · exact (frame_evictAssembliesIfFull place r.assemblies.length).trans (frame_insert _)

variable (parse : Bytes → Option Message)

theorem frame_accept (envelope : ClientEnvelope Message) (streamId : Text)
    (metadata : ClientSegmentMetadata) (segmentId : ℕ) (chunk : Text) (now : ℕ) :
    Frame envelope.clientId r
      (r.accept parse envelope streamId metadata segmentId chunk now).1 := by
  rw [accept]
  split
  · exact .refl
  · split
    · exact frame_insert _
    · exact .refl
    · exact frame_removeAssembly _ _
    · exact frame_removeAssembly _ _

theorem frame_observe (place : Text → ℕ) (now : ℕ) (envelope : ClientEnvelope Message) :
    Frame envelope.clientId r (r.observe parse place now envelope).1 := by
  rw [observe]
  split
  · split
    · dsimp only
      split_ifs
      · exact .refl
      · exact frame_removeAssembly _ _
      · exact (frame_openAssembly ..).trans (frame_accept ..)
    · exact .refl
  · exact .refl

theorem Frame.get_eq_none (h : Frame clientId r r') (hr : SortedMap.Sorted r.assemblies)
    {client : Text} (hne : client ≠ clientId) (hget : SortedMap.get client r.assemblies = none) :
    SortedMap.get client r'.assemblies = none := by
  cases hget' : SortedMap.get client r'.assemblies with
  | none => rfl
  | some a =>
    rcases h.mem _ (SortedMap.mem_of_get hget') with hmem | heq
    · rw [SortedMap.get_of_mem hr hmem] at hget
      cases hget
    · exact absurd heq hne

/-! ## Eviction -/

variable (e e' : Text × ClientSegmentAssembly)

theorem older_eq_or : older place e e' = e ∨ older place e e' = e' := by
  rw [older]
  split_ifs
  · exact Or.inr rfl
  · exact Or.inl rfl

theorem older_le :
    (older place e e').2.lastChunkSeenAt ≤ e.2.lastChunkSeenAt ∧
      (older place e e').2.lastChunkSeenAt ≤ e'.2.lastChunkSeenAt := by
  rw [older]
  split_ifs with h
  · exact ⟨(Prod.Lex.toLex_lt_toLex.1 h).elim Nat.le_of_lt fun h => h.1.le, Nat.le_refl _⟩
  · refine ⟨Nat.le_refl _, Nat.not_lt.1 fun hlt => h ?_⟩
    exact Prod.Lex.toLex_lt_toLex.2 (Or.inl hlt)

/-- What is evicted is an entry, and no entry is older. -/
theorem foldl_older_spec (entries : List (Text × ClientSegmentAssembly))
    (e : Text × ClientSegmentAssembly) :
    entries.foldl (older place) e ∈ e :: entries ∧
      ∀ e' ∈ e :: entries,
        (entries.foldl (older place) e).2.lastChunkSeenAt ≤ e'.2.lastChunkSeenAt := by
  induction entries generalizing e with
  | nil =>
    refine ⟨mem_cons_self, fun e' he' => ?_⟩
    rw [mem_singleton.1 he']
    exact Nat.le_refl _
  | cons e₁ entries ih =>
    obtain ⟨hmem, hle⟩ := ih (older place e e₁)
    obtain ⟨hleft, hright⟩ := older_le place e e₁
    have hhead := hle _ mem_cons_self
    constructor
    · rcases mem_cons.1 hmem with heq | hmem
      · rw [foldl_cons, heq]
        rcases older_eq_or place e e₁ with h | h
        · rw [h]
          exact mem_cons_self
        · rw [h]
          exact mem_cons_of_mem _ mem_cons_self
      · exact mem_cons_of_mem _ (mem_cons_of_mem _ hmem)
    · intro e' he'
      rcases mem_cons.1 he' with rfl | he'
      · exact hhead.trans hleft
      · rcases mem_cons.1 he' with rfl | he'
        · exact hhead.trans hright
        · exact hle e' (mem_cons_of_mem _ he')

theorem length_le_card {entries : List (Text × ClientSegmentAssembly)}
    (hsorted : SortedMap.Sorted entries) {clients : Finset Text}
    (h : ∀ e ∈ entries, e.1 ∈ clients) : entries.length ≤ clients.card := by
  have hnodup : (entries.map Prod.fst).Nodup :=
    List.Pairwise.map _ (fun _ _ hlt => ne_of_lt hlt) hsorted
  rw [← length_map (f := Prod.fst), ← toFinset_card_of_nodup hnodup]
  refine Finset.card_le_card fun client hclient => ?_
  obtain ⟨e, he, rfl⟩ := mem_map.1 (mem_toFinset.1 hclient)
  exact h e he

/-- **Few clients push out nobody recent.**  If the clients whose assemblies are not older
than one's own are fewer than the limit, one's own assembly stays. -/
theorem get_evictAssembliesIfFull (fuel : ℕ) (hsorted : SortedMap.Sorted r.assemblies)
    {client : Text} {a : ClientSegmentAssembly} (hget : SortedMap.get client r.assemblies = some a)
    {recent : Finset Text}
    (hrecent : ∀ e ∈ r.assemblies, a.lastChunkSeenAt ≤ e.2.lastChunkSeenAt → e.1 ∈ recent)
    (hcard : recent.card < segmentAssemblyMaxCount) :
    SortedMap.get client (r.evictAssembliesIfFull place fuel).assemblies = some a := by
  induction fuel generalizing r with
  | zero => exact hget
  | succ fuel ih =>
    rw [evictAssembliesIfFull]
    cases hentries : r.assemblies with
    | nil =>
      rw [hentries] at hget
      cases hget
    | cons e rest =>
      dsimp only
      split_ifs with hfull
      · obtain ⟨hmem, hle⟩ := foldl_older_spec place rest e
        rw [← hentries] at hmem hle hfull ⊢
        have hne : client ≠ (rest.foldl (older place) e).1 := by
          -- otherwise every entry is at least as recent as one's own
          intro heq
          have hown : rest.foldl (older place) e = (client, a) := by
            have hfst := SortedMap.get_of_mem hsorted (show
              ((rest.foldl (older place) e).1, (rest.foldl (older place) e).2) ∈ r.assemblies
                from hmem)
            rw [← heq, hget] at hfst
            exact Prod.ext heq.symm (some.inj hfst).symm
          rw [hown] at hle
          have := length_le_card hsorted fun e' he' => hrecent e' he' (hle e' he')
          omega
        refine ih hsorted.erase ?_ fun e' he' => hrecent e' (mem_of_mem_filter he')
        rw [SortedMap.get_erase, if_neg hne, hget]
      · exact hget

theorem get_removeAssembly_of_ne {client : Text} (hne : client ≠ clientId) (streamId : Text) :
    SortedMap.get client (r.removeAssembly clientId streamId).assemblies =
      SortedMap.get client r.assemblies := by
  rw [removeAssembly]
  split_ifs
  · rw [SortedMap.get_erase, if_neg hne]
  · rfl

/-- A segment leaves the assemblies of other clients alone. -/
theorem get_accept_of_ne {envelope : ClientEnvelope Message} {client : Text}
    (hne : client ≠ envelope.clientId) (streamId : Text) (metadata : ClientSegmentMetadata)
    (segmentId : ℕ) (chunk : Text) (now : ℕ) :
    SortedMap.get client
        (r.accept parse envelope streamId metadata segmentId chunk now).1.assemblies =
      SortedMap.get client r.assemblies := by
  rw [accept]
  split
  · rfl
  · split
    · rw [SortedMap.get_insert, if_neg hne]
    · rfl
    · exact get_removeAssembly_of_ne hne streamId
    · exact get_removeAssembly_of_ne hne streamId

/-- The observation of another client leaves a recent assembly. -/
theorem get_observe_of_ne (place : Text → ℕ) (now : ℕ) {envelope : ClientEnvelope Message}
    (hsorted : SortedMap.Sorted r.assemblies) {client : Text} (hne : client ≠ envelope.clientId)
    {a : ClientSegmentAssembly} (hget : SortedMap.get client r.assemblies = some a)
    {recent : Finset Text} (hrecent : ∀ e ∈ r.assemblies, a.lastChunkSeenAt ≤ e.2.lastChunkSeenAt →
      e.1 = client ∨ e.1 ∈ recent) (hown : client ∉ recent) (hother : envelope.clientId ∈ recent)
    (hcard : recent.card < segmentAssemblyMaxCount) :
    SortedMap.get client (r.observe parse place now envelope).1.assemblies = some a := by
  have hopen : ∀ streamId metadata, SortedMap.get client
      (r.openAssembly place envelope.clientId streamId metadata now).assemblies = some a := by
    intro streamId metadata
    rw [openAssembly]
    split
    · split_ifs
      · rw [SortedMap.get_insert, if_neg hne, hget]
      · exact hget
    · -- the other client has no assembly yet, so it is not among those that are recent
      rename_i hnone
      rw [SortedMap.get_insert, if_neg hne]
      have hrecent' : ∀ e ∈ r.assemblies, a.lastChunkSeenAt ≤ e.2.lastChunkSeenAt →
          e.1 ∈ insert client (recent.erase envelope.clientId) := by
        intro e he hle
        rcases hrecent e he hle with heq | hmem
        · exact Finset.mem_insert.2 (Or.inl heq)
        · refine Finset.mem_insert_of_mem (Finset.mem_erase.2 ⟨?_, hmem⟩)
          intro heq
          rw [← heq, SortedMap.get_of_mem hsorted he] at hnone
          cases hnone
      apply get_evictAssembliesIfFull place _ hsorted hget hrecent'
      rw [Finset.card_insert_of_notMem fun hmem => hown (Finset.mem_of_mem_erase hmem),
        Finset.card_erase_of_mem hother]
      have := Finset.card_pos.2 ⟨_, hother⟩
      omega
  rw [observe]
  split
  · split
    · dsimp only
      split_ifs
      · exact hget
      · rw [get_removeAssembly_of_ne hne, hget]
      · rw [get_accept_of_ne parse hne]
        exact hopen _ _
    · exact hget
  · exact hget

end

open SortedMap

theorem get_removeAssembly_self {r : ClientSegmentReassembler} {clientId : Text}
    {a : ClientSegmentAssembly} (hget : get clientId r.assemblies = some a) :
    get clientId (r.removeAssembly clientId a.streamId).assemblies = none := by
  rw [removeAssembly, hget, any_some, if_pos (decide_eq_true rfl), get_erase, if_pos rfl]

/-- What the expected segment does to an assembly. -/
theorem update_of_next (parse : Bytes → Option Message) (a : ClientSegmentAssembly) (chunk : Text)
    (now : ℕ) {bytes : Bytes}
    (hdecode : decodeSlice chunk (min a.metadata.messageSizeBytes
      (a.raw.length + Base64.decodedLenEstimate (utf8Len chunk)) - a.raw.length) = some bytes) :
    a.update parse a.metadata a.nextSegmentId chunk now =
      if a.nextSegmentId + 1 < a.metadata.segmentCount then
        .pending { a with
          raw := a.raw ++ bytes
          nextSegmentId := a.nextSegmentId + 1
          lastChunkSeenAt := now }
      else if (a.raw ++ bytes).length ≠ a.metadata.messageSizeBytes then .drop
      else
        match parse (a.raw ++ bytes) with
        | some message => .complete message
        | none => .drop := by
  rw [ClientSegmentAssembly.update, if_neg (Nat.lt_irrefl _), if_neg (not_not.2 rfl),
    if_neg (Nat.lt_irrefl _), if_neg (not_not.2 rfl)]
  dsimp only
  generalize decodeSlice chunk _ = decoded at hdecode ⊢
  subst hdecode
  rfl

/-! ## The segments of a message -/

/-- A message of a client in valid segments. -/
structure ChunkedMessage (parse : Bytes → Option Message) where
  clientId : Text
  streamId : Text
  metadata : ClientSegmentMetadata
  chunks : List Text
  parts : List Bytes
  message : Message
  length_chunks : chunks.length = metadata.segmentCount
  segmentCount_pos : 0 < metadata.segmentCount
  segmentCount_le : metadata.segmentCount ≤ segmentCountMax
  messageSizeBytes_pos : 0 < metadata.messageSizeBytes
  messageSizeBytes_le : metadata.messageSizeBytes ≤ reassembledMaxBytes
  chunk_ne_nil : ∀ chunk ∈ chunks, chunk ≠ []
  decoded : chunks.map Base64.standard.decode = parts.map some
  length_parts : parts.flatten.length = metadata.messageSizeBytes
  parsed : parse parts.flatten = some message

/-- An envelope at a time. -/
structure Observation (Message : Type) where
  place : Text → ℕ
  now : ℕ
  envelope : ClientEnvelope Message

/-- What an observation reports. -/
def Observation.outcome (o : Observation Message) (parse : Bytes → Option Message)
    (r : ClientSegmentReassembler) : ClientSegmentObservation Message :=
  (r.observe parse o.place o.now o.envelope).2

/-- The state after some observations. -/
def observeAll (parse : Bytes → Option Message) (r : ClientSegmentReassembler)
    (os : List (Observation Message)) : ClientSegmentReassembler :=
  os.foldl (fun r o => (r.observe parse o.place o.now o.envelope).1) r

namespace ChunkedMessage

variable {parse : Bytes → Option Message} (m : ChunkedMessage parse)

/-- The envelope carries segment `i` of the message. -/
structure Carries (i : ℕ) (envelope : ClientEnvelope Message) : Prop where
  clientId : envelope.clientId = m.clientId
  streamId : envelope.streamId = some m.streamId
  seqId : envelope.seqId = some m.metadata.seqId
  event : ∃ chunk, m.chunks[i]? = some chunk ∧ envelope.event =
    .clientMessageChunk i m.metadata.segmentCount m.metadata.messageSizeBytes chunk

/-- The observations bring the segments from `i` up to `j`, with envelopes of the other
clients `others` between them. -/
inductive Brings (others : Finset Text) : ℕ → ℕ → List (Observation Message) → Prop where
  | nil (i : ℕ) : Brings others i i []
  | own {i j : ℕ} {o : Observation Message} {os : List (Observation Message)}
      (hcarries : m.Carries i o.envelope) (hos : Brings others (i + 1) j os) :
      Brings others i j (o :: os)
  | other {i j : ℕ} {o : Observation Message} {os : List (Observation Message)}
      (hother : o.envelope.clientId ∈ others) (hos : Brings others i j os) :
      Brings others i j (o :: os)

/-- The assembly with the first `k` segments. -/
def assembly (k lastChunkSeenAt : ℕ) : ClientSegmentAssembly where
  streamId := m.streamId
  metadata := m.metadata
  raw := (m.parts.take k).flatten
  nextSegmentId := k
  lastChunkSeenAt

theorem getElem?_parts {i : ℕ} {chunk : Text} (h : m.chunks[i]? = some chunk) :
    ∃ bytes, m.parts[i]? = some bytes ∧ Base64.standard.decode chunk = some bytes := by
  have hmap := congrArg (·[i]?) m.decoded
  simp only [getElem?_map, h, map_some] at hmap
  obtain ⟨bytes, hbytes, heq⟩ := map_eq_some_iff.1 hmap.symm
  exact ⟨bytes, hbytes, heq.symm⟩

theorem take_parts_succ {i : ℕ} {bytes : Bytes} (h : m.parts[i]? = some bytes) :
    (m.parts.take (i + 1)).flatten = (m.parts.take i).flatten ++ bytes := by
  rw [take_add_one, h, toList_some, flatten_append, flatten_singleton]

theorem length_take_parts_le (k : ℕ) :
    (m.parts.take k).flatten.length ≤ m.metadata.messageSizeBytes := by
  have hsplit : m.parts.flatten = (m.parts.take k).flatten ++ (m.parts.drop k).flatten := by
    rw [← flatten_append, take_append_drop]
  rw [← m.length_parts, hsplit, length_append]
  exact Nat.le_add_right _ _

/-- The buffer is large enough for every segment. -/
theorem decodeSlice_chunk {i : ℕ} {chunk : Text} {bytes : Bytes} (hparts : m.parts[i]? = some bytes)
    (hdecode : Base64.standard.decode chunk = some bytes) :
    decodeSlice chunk (min m.metadata.messageSizeBytes
      ((m.parts.take i).flatten.length + Base64.decodedLenEstimate (utf8Len chunk)) -
        (m.parts.take i).flatten.length) = some bytes := by
  have htotal := m.length_take_parts_le (i + 1)
  rw [m.take_parts_succ hparts, length_append] at htotal
  have hestimate : bytes.length ≤ Base64.decodedLenEstimate (utf8Len chunk) :=
    (Base64.Alphabet.length_decode_le hdecode).trans
      (Base64.decodedLenEstimate_mono (length_le_utf8Len chunk))
  refine filter_eq_some_iff.2 ⟨hdecode, decide_eq_true ?_⟩
  omega

theorem length_parts_eq : m.parts.length = m.metadata.segmentCount := by
  rw [← m.length_chunks, ← length_map (f := Base64.standard.decode), m.decoded, length_map]

/-- The next segment extends the assembly; the last one completes it. -/
theorem update_assembly {i : ℕ} {chunk : Text} (h : m.chunks[i]? = some chunk) (t now : ℕ) :
    (m.assembly i t).update parse m.metadata i chunk now =
      if i + 1 < m.metadata.segmentCount then .pending (m.assembly (i + 1) now)
      else .complete m.message := by
  obtain ⟨bytes, hparts, hdecode⟩ := m.getElem?_parts h
  refine (update_of_next parse (m.assembly i t) chunk now (m.decodeSlice_chunk hparts hdecode)).trans ?_
  show (if i + 1 < m.metadata.segmentCount then AssemblyUpdate.pending
    { m.assembly i t with
      raw := (m.parts.take i).flatten ++ bytes
      nextSegmentId := i + 1
      lastChunkSeenAt := now }
    else if ((m.parts.take i).flatten ++ bytes).length ≠ m.metadata.messageSizeBytes then .drop
    else match parse ((m.parts.take i).flatten ++ bytes) with
      | some message => .complete message
      | none => .drop) = _
  rw [← m.take_parts_succ hparts]
  split_ifs with hcount hsize
  · rfl
  · exact absurd (m.length_parts ▸ congrArg (fun parts => parts.flatten.length)
      (take_of_length_le (m.length_parts_eq ▸ Nat.not_lt.1 hcount))) hsize
  · rw [take_of_length_le (m.length_parts_eq ▸ Nat.not_lt.1 hcount), m.parsed]

theorem not_invalidSegment {i : ℕ} {chunk : Text} (h : m.chunks[i]? = some chunk) :
    ¬InvalidSegment i m.metadata.segmentCount m.metadata.messageSizeBytes chunk := by
  have hi : i < m.metadata.segmentCount :=
    m.length_chunks ▸ (List.getElem?_eq_some_iff.1 h).1
  have hchunk := m.chunk_ne_nil chunk (mem_of_getElem? h)
  have hcount := m.segmentCount_le
  have hsize := m.messageSizeBytes_pos
  have hmax := m.messageSizeBytes_le
  rw [InvalidSegment]
  rintro (h | h | h | h | h | h)
  all_goals first | omega | exact hchunk h

/-! ## Segments that arrive -/

section
variable {r : ClientSegmentReassembler} {others : Finset Text} {i : ℕ}
  {envelope : ClientEnvelope Message}

/-- A valid segment that is not ignored goes to the assembly of its client. -/
theorem observe_of_carries (h : m.Carries i envelope) (place : Text → ℕ) (now : ℕ)
    (hignore : r.shouldIgnoreChunk m.clientId m.streamId m.metadata.seqId i = false) :
    ∃ chunk, m.chunks[i]? = some chunk ∧ r.observe parse place now envelope =
      (r.openAssembly place m.clientId m.streamId m.metadata now).accept parse envelope m.streamId
        m.metadata i chunk now := by
  obtain ⟨chunk, hchunk, hevent⟩ := h.event
  refine ⟨chunk, hchunk, ?_⟩
  rw [observe, hevent, h.seqId, h.streamId, h.clientId]
  dsimp only
  rw [hignore, if_neg Bool.false_ne_true, if_neg (m.not_invalidSegment hchunk)]

/-- A segment that arrives at the assembly of its message. -/
theorem observe_open (h : m.Carries i envelope) (place : Text → ℕ) (now : ℕ)
    (hignore : r.shouldIgnoreChunk m.clientId m.streamId m.metadata.seqId i = false) {t : ℕ}
    (hget : get m.clientId
      (r.openAssembly place m.clientId m.streamId m.metadata now).assemblies =
        some (m.assembly i t)) :
    (i + 1 < m.metadata.segmentCount → get m.clientId
        (r.observe parse place now envelope).1.assemblies = some (m.assembly (i + 1) now)) ∧
      (i + 1 = m.metadata.segmentCount → (r.observe parse place now envelope).2 =
        .forward { envelope with event := .clientMessage m.message }) := by
  obtain ⟨chunk, hchunk, hobserve⟩ := m.observe_of_carries h place now hignore
  rw [hobserve, accept, h.clientId, hget]
  dsimp only
  rw [m.update_assembly hchunk]
  constructor
  · intro hlt
    rw [if_pos hlt]
    rw [get_insert, if_pos rfl]
  · intro heq
    rw [if_neg (by omega)]

/-- The client has no assembly of this stream. -/
def Fresh (r : ClientSegmentReassembler) : Prop :=
  ∀ a, get m.clientId r.assemblies = some a → a.streamId ≠ m.streamId

theorem shouldIgnoreChunk_of_fresh (h : m.Fresh r) (seqId segmentId : ℕ) :
    r.shouldIgnoreChunk m.clientId m.streamId seqId segmentId = false := by
  rw [shouldIgnoreChunk]
  cases hget : get m.clientId r.assemblies with
  | none => rfl
  | some a =>
    have hne := h a hget
    simp [hne]

theorem get_openAssembly_of_fresh (h : m.Fresh r) (place : Text → ℕ) (now : ℕ) :
    get m.clientId
      (r.openAssembly place m.clientId m.streamId m.metadata now).assemblies =
        some (m.assembly 0 now) := by
  rw [openAssembly]
  cases hget : get m.clientId r.assemblies with
  | none =>
    rw [get_insert, if_pos rfl]
    rfl
  | some a =>
    dsimp only
    rw [if_pos (h a hget), get_insert, if_pos rfl]
    rfl

theorem openAssembly_of_get {a : ClientSegmentAssembly}
    (hget : get m.clientId r.assemblies = some a) (hstream : a.streamId = m.streamId)
    (place : Text → ℕ) (now : ℕ) :
    r.openAssembly place m.clientId m.streamId m.metadata now = r := by
  rw [openAssembly, hget]
  exact if_neg (not_not.2 hstream)

/-- The first segments are there, and only the other clients may be more recent. -/
structure Holding (others : Finset Text) (times : List ℕ) (k : ℕ) (r : ClientSegmentReassembler) :
    Prop where
  sorted : SortedMap.Sorted r.assemblies
  old : ∀ e ∈ r.assemblies,
    e.1 = m.clientId ∨ e.1 ∈ others ∨ ∀ time ∈ times, e.2.lastChunkSeenAt < time
  held : ∃ t ∈ times, SortedMap.get m.clientId r.assemblies = some (m.assembly k t)

variable {m} in
/-- The next segment is added; the last one forwards the message. -/
theorem Holding.own {times : List ℕ} (h : m.Holding others times i r) (place : Text → ℕ) {now : ℕ}
    (hnow : now ∈ times) (hcarries : m.Carries i envelope) :
    (i + 1 < m.metadata.segmentCount →
        m.Holding others times (i + 1) (r.observe parse place now envelope).1) ∧
      (i + 1 = m.metadata.segmentCount → (r.observe parse place now envelope).2 =
        .forward { envelope with event := .clientMessage m.message }) := by
  obtain ⟨t, -, hget⟩ := h.held
  have hignore : r.shouldIgnoreChunk m.clientId m.streamId m.metadata.seqId i = false := by
    rw [shouldIgnoreChunk, hget]
    simp [assembly]
  have hopen := m.openAssembly_of_get hget rfl place now
  obtain ⟨hpending, hforward⟩ := m.observe_open hcarries place now hignore (hopen.symm ▸ hget)
  have hframe := frame_observe (r := r) parse place now envelope
  refine ⟨fun hlt => ⟨hframe.sorted h.sorted, fun e he => ?_, now, hnow, hpending hlt⟩, hforward⟩
  rcases hframe.mem e he with hmem | heq
  · exact h.old e hmem
  · exact Or.inl (heq.trans hcarries.clientId)

variable {m} in
/-- Segments of few other clients leave the assembly in place. -/
theorem Holding.other {times : List ℕ} (h : m.Holding others times i r) (place : Text → ℕ) (now : ℕ)
    (hown : m.clientId ∉ others) (hcard : others.card < segmentAssemblyMaxCount)
    (hother : envelope.clientId ∈ others) :
    m.Holding others times i (r.observe parse place now envelope).1 := by
  obtain ⟨t, ht, hget⟩ := h.held
  have hframe := frame_observe (r := r) parse place now envelope
  have hne : m.clientId ≠ envelope.clientId := fun heq => hown (heq ▸ hother)
  refine ⟨hframe.sorted h.sorted, fun e he => ?_, t, ht, ?_⟩
  · rcases hframe.mem e he with hmem | heq
    · exact h.old e hmem
    · exact Or.inr (Or.inl (heq ▸ hother))
  · refine get_observe_of_ne parse place now h.sorted hne hget (fun e he hle => ?_) hown hother hcard
    rcases h.old e he with heq | hmem | hlt
    · exact Or.inl heq
    · exact Or.inr hmem
    · exact absurd (hlt t ht) (Nat.not_lt.2 hle)

variable {m} in
theorem Brings.le {j : ℕ} {os : List (Observation Message)} (h : m.Brings others i j os) : i ≤ j := by
  induction h with
  | nil i => exact Nat.le_refl i
  | own hcarries hos ih => exact Nat.le_of_succ_le ih
  | other hother hos ih => exact ih

variable {m} in
/-- The assembly holds the segments that have arrived. -/
theorem Holding.observeAll {times : List ℕ} {j : ℕ} {os : List (Observation Message)}
    (hos : m.Brings others i j os) (h : m.Holding others times i r)
    (hown : m.clientId ∉ others) (hcard : others.card < segmentAssemblyMaxCount)
    (htimes : ∀ o ∈ os, o.now ∈ times) (hj : j < m.metadata.segmentCount) :
    m.Holding others times j (observeAll parse r os) := by
  induction hos generalizing r with
  | nil i => exact h
  | own hcarries hos ih =>
    have hle := hos.le
    refine ih ((h.own _ (htimes _ mem_cons_self) hcarries).1 (by omega)) ?_ hj
    exact fun o ho => htimes o (mem_cons_of_mem _ ho)
  | other hother hos ih =>
    refine ih (h.other _ _ hown hcard hother) ?_ hj
    exact fun o ho => htimes o (mem_cons_of_mem _ ho)

/-! ## A message whose first segment is lost -/

/-- A later segment without an assembly is dropped. -/
theorem observe_later (h : m.Carries i envelope) (place : Text → ℕ) (now : ℕ) (hi : 0 < i)
    (hget : get m.clientId r.assemblies = none) :
    get m.clientId (r.observe parse place now envelope).1.assemblies = none ∧
      (r.observe parse place now envelope).2 = .dropped := by
  have hfresh : m.Fresh r := fun a ha => nomatch hget.symm.trans ha
  obtain ⟨chunk, hchunk, hobserve⟩ :=
    m.observe_of_carries h place now (m.shouldIgnoreChunk_of_fresh hfresh _ _)
  have hdrop : ∀ a : ClientSegmentAssembly, a.metadata = m.metadata → a.nextSegmentId = 0 →
      a.update parse m.metadata i chunk now = .drop := by
    intro a hmetadata hnext
    rw [ClientSegmentAssembly.update, hmetadata, hnext, if_neg (Nat.lt_irrefl _),
      if_neg (not_not.2 rfl), if_neg (Nat.not_lt_zero i), if_pos (Nat.ne_of_gt hi)]
  have hopen := m.get_openAssembly_of_fresh hfresh place now
  rw [hobserve, accept, h.clientId, hopen]
  dsimp only
  rw [hdrop _ rfl rfl]
  exact ⟨get_removeAssembly_self hopen, rfl⟩

/-- The first segment goes down with the older message. -/
theorem observe_first_of_older (h : m.Carries 0 envelope) (place : Text → ℕ) (now : ℕ)
    {a : ClientSegmentAssembly} (hget : get m.clientId r.assemblies = some a)
    (hstream : a.streamId = m.streamId) (holder : a.metadata.seqId < m.metadata.seqId) :
    get m.clientId (r.observe parse place now envelope).1.assemblies = none ∧
      (r.observe parse place now envelope).2 = .dropped := by
  have hignore : r.shouldIgnoreChunk m.clientId m.streamId m.metadata.seqId 0 = false := by
    rw [shouldIgnoreChunk, hget, any_some]
    refine decide_eq_false fun hand => ?_
    omega
  obtain ⟨chunk, hchunk, hobserve⟩ := m.observe_of_carries h place now hignore
  have hdrop : a.update parse m.metadata 0 chunk now = .drop := by
    rw [ClientSegmentAssembly.update, if_neg (by omega), if_pos]
    intro heq
    rw [heq] at holder
    exact Nat.lt_irrefl _ holder
  rw [hobserve, m.openAssembly_of_get hget hstream, accept, h.clientId, hget]
  dsimp only
  rw [hdrop, ← hstream]
  exact ⟨get_removeAssembly_self hget, rfl⟩

/-- Without an assembly, none of the later segments starts one. -/
theorem observeAll_later {j : ℕ} {os : List (Observation Message)} (hos : m.Brings others i j os)
    (hown : m.clientId ∉ others) (hi : 0 < i) (hsorted : SortedMap.Sorted r.assemblies)
    (hget : get m.clientId r.assemblies = none) :
    get m.clientId (RemoteControl.observeAll parse r os).assemblies = none := by
  induction hos generalizing r with
  | nil i => exact hget
  | own hcarries hos ih =>
    exact ih (Nat.succ_pos _) ((frame_observe parse _ _ _).sorted hsorted)
      (m.observe_later hcarries _ _ hi hget).1
  | @other i j o os hother hos ih =>
    have hframe := frame_observe (r := r) parse o.place o.now o.envelope
    exact ih hi (hframe.sorted hsorted)
      (hframe.get_eq_none hsorted (fun heq => hown (heq ▸ hother)) hget)

end

/-! ## The last segment -/

section
variable {r : ClientSegmentReassembler} {others : Finset Text} {i : ℕ}
  {front : List (Observation Message)} {last : Observation Message}

/-- The first segment opens an assembly. -/
theorem holding_first {o : Observation Message} {times : List ℕ} (hfresh : m.Fresh r)
    (hsorted : SortedMap.Sorted r.assemblies) (hcarries : m.Carries 0 o.envelope)
    (hnow : o.now ∈ times) (hclock : ∀ e ∈ r.assemblies, e.1 ≠ m.clientId → e.1 ∉ others →
      ∀ time ∈ times, e.2.lastChunkSeenAt < time)
    (hcount : 1 < m.metadata.segmentCount) :
    m.Holding others times 1 (r.observe parse o.place o.now o.envelope).1 := by
  have hframe := frame_observe (r := r) parse o.place o.now o.envelope
  refine ⟨hframe.sorted hsorted, fun e he => ?_, o.now, hnow, ?_⟩
  · rcases hframe.mem e he with hmem | heq
    · by_cases hown : e.1 = m.clientId
      · exact Or.inl hown
      · exact Or.inr (or_iff_not_imp_left.2 (hclock e hmem hown))
    · exact Or.inl (heq.trans hcarries.clientId)
  · exact (m.observe_open hcarries o.place o.now (m.shouldIgnoreChunk_of_fresh hfresh _ _)
      (m.get_openAssembly_of_fresh hfresh o.place o.now)).1 hcount

/-- Without an older assembly, the last segment forwards the message. -/
theorem forwarded_of_fresh (hfresh : m.Fresh r) (hsorted : SortedMap.Sorted r.assemblies)
    (hown : m.clientId ∉ others) (hcard : others.card < segmentAssemblyMaxCount)
    (hfront : m.Brings others 0 (m.metadata.segmentCount - 1) front)
    (hfirst : ∀ o ∈ front.head?, o.envelope.clientId = m.clientId)
    (hlast : m.Carries (m.metadata.segmentCount - 1) last.envelope)
    (hclock : ∀ e ∈ r.assemblies, e.1 ≠ m.clientId → e.1 ∉ others →
      ∀ o ∈ front ++ [last], e.2.lastChunkSeenAt < o.now) :
    last.outcome parse (RemoteControl.observeAll parse r front) =
      .forward { last.envelope with event := .clientMessage m.message } := by
  have hpos := m.segmentCount_pos
  have hlastCount : m.metadata.segmentCount - 1 + 1 = m.metadata.segmentCount := by omega
  generalize hj : m.metadata.segmentCount - 1 = j at hfront hlast hlastCount
  cases hfront with
  | nil =>
    exact (m.observe_open hlast last.place last.now (m.shouldIgnoreChunk_of_fresh hfresh _ _)
      (m.get_openAssembly_of_fresh hfresh last.place last.now)).2 hlastCount
  | @own _ _ o os hcarries hos =>
    have hle := hos.le
    have hheld : m.Holding others ((o :: os ++ [last]).map (·.now)) 1
        (r.observe parse o.place o.now o.envelope).1 := by
      refine m.holding_first hfresh hsorted hcarries (mem_map_of_mem mem_cons_self)
        (fun e he hne hnot time htime => ?_) (by omega)
      obtain ⟨o', ho', rfl⟩ := mem_map.1 htime
      exact hclock e he hne hnot o' ho'
    have htimes : ∀ o' ∈ os, o'.now ∈ (o :: os ++ [last]).map (·.now) := fun o' ho' =>
      mem_map_of_mem (mem_append_left _ (mem_cons_of_mem _ ho'))
    have hall := hheld.observeAll hos hown hcard htimes (by omega)
    exact (hall.own last.place (mem_map_of_mem (by simp)) hlast).2 hlastCount
  | @other _ _ o os hother hos => exact absurd (hfirst o rfl ▸ hother) hown

/-- With an older assembly of the stream, the message is dropped. -/
theorem dropped_of_older {a : ClientSegmentAssembly}
    (hget : get m.clientId r.assemblies = some a) (hstream : a.streamId = m.streamId)
    (holder : a.metadata.seqId < m.metadata.seqId) (hsorted : SortedMap.Sorted r.assemblies)
    (hown : m.clientId ∉ others) (hfront : m.Brings others 0 (m.metadata.segmentCount - 1) front)
    (hfirst : ∀ o ∈ front.head?, o.envelope.clientId = m.clientId)
    (hlast : m.Carries (m.metadata.segmentCount - 1) last.envelope) :
    last.outcome parse (RemoteControl.observeAll parse r front) = .dropped := by
  generalize hj : m.metadata.segmentCount - 1 = j at hfront hlast
  cases hfront with
  | nil => exact (m.observe_first_of_older hlast last.place last.now hget hstream holder).2
  | @own _ _ o os hcarries hos =>
    have hle := hos.le
    have hlost := (m.observe_first_of_older hcarries o.place o.now hget hstream holder).1
    have hsorted' := (frame_observe parse o.place o.now o.envelope).sorted hsorted
    have hnone := m.observeAll_later hos hown Nat.one_pos hsorted' hlost
    exact (m.observe_later hlast last.place last.now (by omega) hnone).2
  | @other _ _ o os hother hos => exact absurd (hfirst o rfl ▸ hother) hown

end

/-- **When a message is forwarded.**  All segments of a valid message arrive in order, with
envelopes of fewer other clients than the limit between them, and the message is newer than
what its stream had before; clients that are not counted among the others were last seen before.
At the last segment the message is forwarded, exactly if no older message of the stream is
incomplete when the first segment arrives. -/
theorem forwarded_iff_no_older_assembly (r : ClientSegmentReassembler)
    (hsorted : SortedMap.Sorted r.assemblies) (others : Finset Text)
    (hown : m.clientId ∉ others) (hcard : others.card < segmentAssemblyMaxCount)
    (front : List (Observation Message)) (last : Observation Message)
    (hfront : m.Brings others 0 (m.metadata.segmentCount - 1) front)
    (hfirst : ∀ o ∈ front.head?, o.envelope.clientId = m.clientId)
    (hlast : m.Carries (m.metadata.segmentCount - 1) last.envelope)
    (hnewer : ∀ a, SortedMap.get m.clientId r.assemblies = some a → a.streamId = m.streamId →
      a.metadata.seqId < m.metadata.seqId)
    (hclock : ∀ e ∈ r.assemblies, e.1 ≠ m.clientId → e.1 ∉ others →
      ∀ o ∈ front ++ [last], e.2.lastChunkSeenAt < o.now) :
    last.outcome parse (RemoteControl.observeAll parse r front) =
        .forward { last.envelope with event := .clientMessage m.message } ↔
      ∀ a, SortedMap.get m.clientId r.assemblies = some a → a.streamId ≠ m.streamId := by
  by_cases hfresh : m.Fresh r
  · exact iff_of_true (m.forwarded_of_fresh hfresh hsorted hown hcard hfront hfirst hlast hclock) hfresh
  · refine iff_of_false ?_ hfresh
    rw [Fresh] at hfresh
    push Not at hfresh
    obtain ⟨a, hget, hstream⟩ := hfresh
    rw [m.dropped_of_older hget hstream (hnewer a hget hstream) hsorted hown hfront hfirst hlast]
    exact nofun

end ChunkedMessage

/-- A message of four bytes in two segments. -/
def sampleMessage : ChunkedMessage (some : Bytes → Option Bytes) where
  clientId := ['a']
  streamId := ['s']
  metadata := { seqId := 7, segmentCount := 2, messageSizeBytes := 4 }
  chunks := ["aGk=".toList, "ISE=".toList]
  parts := [[104, 105], [33, 33]]
  message := [104, 105, 33, 33]
  length_chunks := rfl
  segmentCount_pos := by decide
  segmentCount_le := by decide
  messageSizeBytes_pos := by decide
  messageSizeBytes_le := by decide
  chunk_ne_nil := by decide
  decoded := by decide
  length_parts := rfl
  parsed := rfl

theorem sampleMessage_carries_first : sampleMessage.Carries 0 (sampleSegment 'a' 0 "aGk=") :=
  ⟨rfl, rfl, rfl, _, rfl, rfl⟩

theorem sampleMessage_carries_last : sampleMessage.Carries 1 (sampleSegment 'a' 1 "ISE=") :=
  ⟨rfl, rfl, rfl, _, rfl, rfl⟩

/-- A reassembler that has seen the first segment of another client. -/
def seenOther : ClientSegmentReassembler :=
  observeAll some {} [⟨fun _ => 0, 1, sampleSegment 'b' 0 "aGk="⟩]

/-- The theorem with a message of another client in progress, whose second segment arrives between
the two segments and at the same time as the first. -/
theorem forwarded_iff_no_older_assembly_sample :
    Observation.outcome ⟨fun _ => 0, 2, sampleSegment 'a' 1 "ISE="⟩ some
        (observeAll some seenOther [⟨fun _ => 0, 1, sampleSegment 'a' 0 "aGk="⟩,
          ⟨fun _ => 0, 1, sampleSegment 'b' 1 "ISE="⟩]) =
      .forward { sampleSegment 'a' 1 "ISE=" with event := .clientMessage [104, 105, 33, 33] } := by
  have hclients : ∀ e ∈ seenOther.assemblies, e.1 = ['b'] := by decide
  refine (sampleMessage.forwarded_iff_no_older_assembly seenOther (pairwise_singleton _ _)
    {['b']} (by decide) (by decide) [⟨fun _ => 0, 1, _⟩, ⟨fun _ => 0, 1, _⟩] ⟨fun _ => 0, 2, _⟩
    (.own sampleMessage_carries_first (.other (by decide) (.nil 1))) (fun o ho => ?_)
    sampleMessage_carries_last nofun fun e he _ hnot => ?_).2 nofun
  · obtain rfl := Option.some.inj ho
    rfl
  · exact absurd (Finset.mem_singleton.2 (hclients e he)) hnot

/-- **A newer message is lost.**  Segment 0 of message 6 arrives, but not its segment 1; then
both segments of message 7 arrive.  Both are dropped. -/
theorem newer_message_lost :
    let older : ClientEnvelope Bytes := { sampleSegment 'a' 0 "aGk=" with seqId := some 6 }
    let r := run some [.observe (fun _ => 0) 0 older]
    sampleMessage.Carries 0 (sampleSegment 'a' 0 "aGk=") ∧
      sampleMessage.Carries 1 (sampleSegment 'a' 1 "ISE=") ∧
      Observation.outcome ⟨fun _ => 0, 1, sampleSegment 'a' 0 "aGk="⟩ some r = .dropped ∧
      Observation.outcome ⟨fun _ => 0, 2, sampleSegment 'a' 1 "ISE="⟩ some
        (observeAll some r [⟨fun _ => 0, 1, sampleSegment 'a' 0 "aGk="⟩]) = .dropped :=
  ⟨sampleMessage_carries_first, sampleMessage_carries_last, rfl, rfl⟩

end RemoteControl
