/-
# The reader of a virtual stream (`noise_relay/executor_stream.rs`)

A relay that is not trusted carries the encrypted records of a stream.  It may lose, copy, reorder
and make up frames.  The reader puts the frames in order, decrypts and decodes them, hands the
messages to its handler, and ends with its first error.
-/
import BetterCodex.MessageFraming
import BetterCodex.OrderedCiphertext

namespace NoiseRelay

open List

/-- The errors of `receive_data`. -/
inductive StreamError where
  | ordering (e : PushError)
  | decryption
  | framing (e : FramingError)
  | delivery

/-- `NoiseVirtualStream`, with the nonce of its transport, the messages that it has put into the
queue of its handler, and the error that ended it. -/
structure NoiseVirtualStream where
  inboundCiphertexts : OrderedCiphertextFrames := {}
  nonce : ℕ := 0
  inboundDecoder : MessageDecoder := {}
  delivered : List Bytes := []
  error : Option StreamError := none

namespace NoiseVirtualStream

variable (decrypt : ℕ → Payload → Option Bytes) (accepted : ℕ → Bytes → Bool)

/-- The loop over the messages of a record: `H::decode` and `try_send` accept a message or end the
stream. -/
def deliverAll (delivered : List Bytes) : List Bytes → List Bytes × Option StreamError
  | [] => (delivered, none)
  | message :: messages =>
    if accepted delivered.length message then deliverAll (delivered ++ [message]) messages
    else (delivered, some .delivery)

/-- The loop over the ciphertexts that are in order; a failed decryption keeps the nonce. -/
def receiveCiphertexts (s : NoiseVirtualStream) : List Payload → NoiseVirtualStream
  | [] => s
  | ciphertext :: ciphertexts =>
    match decrypt s.nonce ciphertext with
    | none => { s with error := some .decryption }
    | some plaintext =>
      match s.inboundDecoder.push plaintext with
      | (.error e, d) =>
        { s with nonce := s.nonce + 1, inboundDecoder := d, error := some (.framing e) }
      | (.ok messages, d) =>
        let (delivered, error) := deliverAll accepted s.delivered messages
        let s := { s with nonce := s.nonce + 1, inboundDecoder := d, delivered, error }
        if error.isSome then s else receiveCiphertexts s ciphertexts

/-- `receive_data`; a stream that has failed is removed and receives nothing more. -/
def receiveData (s : NoiseVirtualStream) (data : Frame) : NoiseVirtualStream :=
  if s.error.isSome then s
  else
    match s.inboundCiphertexts.push data.seq data.payload with
    | (.error e, c) => { s with inboundCiphertexts := c, error := some (.ordering e) }
    | (.ok ready, c) => receiveCiphertexts decrypt accepted { s with inboundCiphertexts := c } ready

/-- A new stream after some arrivals. -/
def receiveAll (arrivals : List Frame) : NoiseVirtualStream :=
  arrivals.foldl (receiveData decrypt accepted) {}

/-! ## What is delivered -/

/-- The framed messages of the writer, cut into records. -/
structure Sent where
  messages : List Bytes
  records : List Bytes
  sendable : ∀ m ∈ messages, Sendable m
  flatten_records : records.flatten = messages.flatMap frame
  length_record : ∀ r ∈ records, r.length ≤ noiseRecordPlaintextLen

variable {decrypt accepted} {sent : Sent} {s : NoiseVirtualStream} {arrivals : List Frame}

/-- A handler takes a first part of the messages, all of them without an error. -/
theorem deliverAll_spec (accepted : ℕ → Bytes → Bool) (delivered ms : List Bytes) :
    ∃ done rest, ms = done ++ rest ∧ (deliverAll accepted delivered ms).1 = delivered ++ done ∧
      ((deliverAll accepted delivered ms).2 = none → rest = []) := by
  induction ms generalizing delivered with
  | nil => exact ⟨[], [], rfl, (append_nil _).symm, fun _ => rfl⟩
  | cons m ms ih =>
    rw [deliverAll]
    split_ifs
    · obtain ⟨done, rest, rfl, hout, hend⟩ := ih (delivered ++ [m])
      exact ⟨m :: done, rest, rfl, by rw [hout, append_assoc]; rfl, hend⟩
    · exact ⟨[], m :: ms, rfl, (append_nil _).symm, nofun⟩

/-- The first messages are delivered; without an error, those of the records that were read. -/
def Delivers (sent : Sent) (s : NoiseVirtualStream) : Prop :=
  ∃ rest, sent.messages = s.delivered ++ rest ∧
    (s.error = none → Holds s.inboundDecoder (sent.records.drop s.nonce).flatten rest)

/-- Under every nonce, the ciphertext decrypts to nothing but the record of that number. -/
def Authentic (decrypt : ℕ → Payload → Option Bytes) (sent : Sent) (c : Payload) : Prop :=
  ∀ n p, decrypt n c = some p → sent.records[n]? = some p

/-- Released records are decrypted, decoded and delivered in order. -/
theorem Delivers.receiveCiphertexts (accepted : ℕ → Bytes → Bool) {ready : List Payload}
    (h : Delivers sent s) (hready : ∀ c ∈ ready, Authentic decrypt sent c) (herror : s.error = none) :
    let s' := receiveCiphertexts decrypt accepted s ready
    Delivers sent s' ∧ s'.inboundCiphertexts = s.inboundCiphertexts ∧
      (s'.error = none → s'.nonce = s.nonce + ready.length) := by
  induction ready generalizing s with
  | nil => exact ⟨h, rfl, fun _ => rfl⟩
  | cons c ready ih =>
    obtain ⟨hc, hready⟩ := forall_mem_cons.1 hready
    obtain ⟨rest, hsplit, hholds⟩ := h
    rw [NoiseVirtualStream.receiveCiphertexts]
    cases hp : decrypt s.nonce c with
    | none => exact ⟨⟨rest, hsplit, nofun⟩, rfl, nofun⟩
    | some p =>
      obtain ⟨hlt, hget⟩ := List.getElem?_eq_some_iff.1 (hc _ _ hp)
      have hholds := hholds herror
      rw [drop_eq_getElem_cons hlt, flatten_cons, hget] at hholds
      obtain ⟨new, rest', d, rfl, hpush, hholds'⟩ := push_of_holds hholds
        (fun m hm => sent.sendable m (hsplit ▸ mem_append_right _ hm))
        (sent.length_record p (hget ▸ getElem_mem hlt))
      obtain ⟨done, left, rfl, hout, hend⟩ := deliverAll_spec accepted s.delivered new
      dsimp only
      rw [hpush]
      dsimp only
      rw [hout]
      cases herror' : (deliverAll accepted s.delivered (done ++ left)).2 with
      | some e => exact ⟨⟨left ++ rest', by simpa using hsplit, nofun⟩, rfl, nofun⟩
      | none =>
        obtain rfl := hend herror'
        obtain ⟨hdelivers, hciphertexts, hnonce⟩ := @ih
          ⟨s.inboundCiphertexts, s.nonce + 1, d, s.delivered ++ done, none⟩
          ⟨rest', by simpa using hsplit, fun _ => hholds'⟩ hready rfl
        refine ⟨hdelivers, hciphertexts, fun hnone => (hnonce hnone).trans ?_⟩
        show s.nonce + 1 + ready.length = s.nonce + (ready.length + 1)
        omega

/-- The invariant of a stream: the nonce is the number that the buffer waits for. -/
structure Connected (sent : Sent) (arrivals : List Frame) (s : NoiseVirtualStream) : Prop where
  delivers : Delivers sent s
  waiting : s.error = none → s.nonce = s.inboundCiphertexts.nextSeq ∧
    ∃ released, Waiting (firstCopy arrivals) released s.inboundCiphertexts

/-- One arrival. -/
theorem Connected.receiveData {f : Frame} (h : Connected sent arrivals s)
    (hauthentic : ∀ f' ∈ arrivals ++ [f], Authentic decrypt sent f'.payload) :
    Connected sent (arrivals ++ [f]) (s.receiveData decrypt accepted f) := by
  rw [NoiseVirtualStream.receiveData]
  split_ifs with herror
  · exact ⟨h.delivers, fun hnone => absurd herror (by simp [hnone])⟩
  rw [Option.not_isSome_iff_eq_none] at herror
  obtain ⟨hnonce, released, hwaiting⟩ := h.waiting herror
  obtain ⟨rest, hsplit, hholds⟩ := h.delivers
  rcases hwaiting.push f with ⟨ready, c, hpush, hwaiting'⟩ | ⟨e, -, hpush⟩ | ⟨c, hpush, -⟩
  · -- what the buffer releases are payloads that arrived
    have hready : ∀ payload ∈ ready, Authentic decrypt sent payload := by
      intro payload hpayload
      have hmem : some payload ∈ (released ++ ready).map some :=
        mem_map_of_mem (mem_append_right released hpayload)
      rw [hwaiting'.inOrder] at hmem
      obtain ⟨seq, -, hfirst⟩ := mem_map.1 hmem
      obtain ⟨f', hf', rfl⟩ := Option.map_eq_some_iff.1 hfirst
      exact hauthentic f' (mem_of_find?_eq_some hf')
    have hloop : Delivers sent { s with inboundCiphertexts := c } := ⟨rest, hsplit, hholds⟩
    obtain ⟨hdelivers, hciphertexts, hlength⟩ :=
      hloop.receiveCiphertexts accepted hready herror
    rw [hpush]
    refine ⟨hdelivers, fun hnone => ⟨?_, released ++ ready, hciphertexts ▸ hwaiting'⟩⟩
    have hnext := hwaiting'.length_released
    rw [length_append, hwaiting.length_released, ← hnonce] at hnext
    exact (hlength hnone).trans (hnext.trans (congrArg _ hciphertexts.symm))
  · rw [hpush]
    exact ⟨⟨rest, hsplit, nofun⟩, nofun⟩
  · rw [hpush]
    exact ⟨⟨rest, hsplit, nofun⟩, nofun⟩

/-- Any arrivals. -/
theorem connected_receiveAll (accepted : ℕ → Bytes → Bool)
    (hauthentic : ∀ f ∈ arrivals, Authentic decrypt sent f.payload) :
    Connected sent arrivals (receiveAll decrypt accepted arrivals) := by
  induction arrivals using List.reverseRecOn with
  | nil =>
    refine ⟨⟨_, rfl, fun _ => ⟨sent.flatten_records, fun m _ => ?_⟩⟩, fun _ => ⟨rfl, [], ?_⟩⟩
    · rw [length_frame]
      exact Nat.add_pos_left (by decide) _
    · exact (delivering_trace []).resolve_right fun h => absurd (h.all 0 (by decide)) nofun
  | append_singleton arrivals f ih =>
    rw [receiveAll, foldl_append]
    exact (ih fun f' hf' => hauthentic f' (mem_append_left _ hf')).receiveData hauthentic

/-- **Nothing is lost in the middle, doubled, reordered or made up.**  Let an arrival decrypt under
a nonce only to the record that was sent with that number.  Then the delivered messages are the
first ones that were sent, whatever arrives in whatever order.  If the stream has not failed and
every number has arrived, all messages are delivered. -/
theorem delivers_in_order (decrypt : ℕ → Payload → Option Bytes) (accepted : ℕ → Bytes → Bool)
    (sent : Sent) (arrivals : List Frame)
    (hauthentic : ∀ f ∈ arrivals, Authentic decrypt sent f.payload) :
    (receiveAll decrypt accepted arrivals).delivered <+: sent.messages ∧
      ((receiveAll decrypt accepted arrivals).error = none →
        (∀ n < sent.records.length, ∃ f ∈ arrivals, f.seq = n) →
        (receiveAll decrypt accepted arrivals).delivered = sent.messages) := by
  obtain ⟨⟨rest, hsplit, hholds⟩, hwaiting⟩ :=
    connected_receiveAll accepted hauthentic
  generalize receiveAll decrypt accepted arrivals = s at *
  refine ⟨⟨rest, hsplit.symm⟩, fun hnone harrived => ?_⟩
  obtain ⟨hnonce, released, hw⟩ := hwaiting hnone
  -- the number that the buffer waits for has not arrived, so it is none of the writer's
  have hend : sent.records.length ≤ s.nonce := by
    by_contra hlt
    obtain ⟨f, hf, hseq⟩ := harrived _ (not_le.1 hlt)
    have hmissing := Option.map_eq_none_iff.1 hw.missing
    exact find?_eq_none.1 hmissing f hf (decide_eq_true (hseq.trans hnonce))
  have hholds := hholds hnone
  rw [drop_of_length_le hend] at hholds
  cases rest with
  | nil => rw [hsplit, append_nil]
  | cons m rest =>
    have hshort := hholds.short m rfl
    have hlength := congrArg List.length hholds.stream
    rw [flatten_nil, append_nil, flatMap_cons, length_append] at hlength
    omega

/-- Two messages; the second one's length is cut by the end of the first record. -/
def sentTwo : Sent where
  messages := [[7], [8, 9]]
  records := [[0, 0, 0, 1, 7, 0, 0], [0, 2, 8, 9]]
  sendable m hm := by
    rcases mem_pair.1 hm with rfl | rfl
    · exact ⟨by decide, by decide⟩
    · exact ⟨by decide, by decide⟩
  flatten_records := rfl
  length_record := by decide

/-- The second frame arrives first, and once more at the end. -/
theorem delivers_in_order_copy :
    let frames : List Frame := [⟨1, [5], by decide⟩, ⟨0, [9], by decide⟩, ⟨1, [5], by decide⟩]
    let received := receiveAll (fun n _ => sentTwo.records[n]?) (fun _ _ => true) frames
    received.error = none ∧ received.delivered = [[7], [8, 9]] :=
  ⟨rfl, (delivers_in_order _ _ sentTwo _ fun _ _ _ _ hp => hp).2 rfl (by decide)⟩

end NoiseVirtualStream

end NoiseRelay
