/-
# Ordered ciphertext frames of the Noise relay

Relay records arrive in any order; Noise needs them in theirs.  The buffer releases the
expected record and what follows it without a gap, keeps what lies ahead within a window
and a byte limit, and drops copies.
-/
import BetterCodex.SortedMap

namespace NoiseRelay

open SortedMap Option

/-! ## The buffer -/

def maxReorderDistance : ℕ := 64
def maxPendingBytes : ℕ := 1024 * 1024

abbrev Payload : Type := List UInt8

/-- The errors of `push`. -/
inductive PushError where
  | exceedsReorderWindow
  | bufferFull
  | sequenceExhausted
  deriving DecidableEq, Repr

/-- The text of an error. -/
def PushError.message : PushError → String
  | .exceedsReorderWindow => "Noise relay ciphertext exceeds reorder window"
  | .bufferFull => "Noise relay pending ciphertext buffer is full"
  | .sequenceExhausted => "Noise relay sequence number exhausted"

structure OrderedCiphertextFrames where
  nextSeq : ℕ := 0
  pending : List (ℕ × Payload) := []
  pendingBytes : ℕ := 0
  deriving DecidableEq, Repr

namespace OrderedCiphertextFrames

/-- `advance`: `checked_add(1)` of a `u32`. -/
def advance (s : OrderedCiphertextFrames) : Option OrderedCiphertextFrames :=
  if s.nextSeq + 1 < 2 ^ 32 then some { s with nextSeq := s.nextSeq + 1 } else none

/-- The loop of `push` over the buffered records; a failed `advance` drops what is ready. -/
def drain : ℕ → OrderedCiphertextFrames → List Payload →
    Except PushError (List Payload) × OrderedCiphertextFrames
  | 0, s, ready => (.ok ready, s)
  | fuel + 1, s, ready =>
    match get s.nextSeq s.pending with
    | none => (.ok ready, s)
    | some payload =>
      let s := { s with
        pending := erase s.nextSeq s.pending
        pendingBytes := s.pendingBytes - payload.length }
      match s.advance with
      | none => (.error .sequenceExhausted, s)
      | some s => drain fuel s (ready ++ [payload])

def push (s : OrderedCiphertextFrames) (seq : ℕ) (payload : Payload) :
    Except PushError (List Payload) × OrderedCiphertextFrames :=
  if seq < s.nextSeq ∨ (get seq s.pending).isSome then (.ok [], s)
  else if s.nextSeq < seq then
    if maxReorderDistance < seq - s.nextSeq then (.error .exceedsReorderWindow, s)
    else if maxPendingBytes < s.pendingBytes + payload.length then (.error .bufferFull, s)
    else
      (.ok [], { s with
        pending := insert seq payload s.pending
        pendingBytes := s.pendingBytes + payload.length })
  else
    match s.advance with
    | none => (.error .sequenceExhausted, s)
    -- every turn of the loop takes one record out of the buffer
    | some s => drain s.pending.length s [payload]

end OrderedCiphertextFrames

/-! ## Arrivals -/

/-- A relay record; its number is a `u32`. -/
structure Frame where
  seq : ℕ
  payload : Payload
  seq_lt : seq < 2 ^ 32

/-- The first copy of a number. -/
def firstCopy (frames : List Frame) (seq : ℕ) : Option Payload :=
  (frames.find? (·.seq = seq)).map (·.payload)

/-- The frame was refused for the window or the byte limit. -/
def PushError.Rejects (e : PushError) : Prop := e ≠ .sequenceExhausted

instance (e : PushError) : Decidable e.Rejects := inferInstanceAs (Decidable (e ≠ _))

/-- A buffer, the frames that it did not reject, and what it released. -/
structure Trace where
  state : OrderedCiphertextFrames := {}
  received : List Frame := []
  released : List Payload := []

/-- One arrival. -/
def Trace.push (t : Trace) (f : Frame) : Trace :=
  match t.state.push f.seq f.payload with
  | (.ok ready, state) =>
    { state, received := t.received ++ [f], released := t.released ++ ready }
  | (.error e, state) =>
    { t with state, received := if e.Rejects then t.received else t.received ++ [f] }

/-- Any number of arrivals. -/
def trace (frames : List Frame) : Trace := frames.foldl Trace.push {}

/-! ## Releases in order -/

section
variable {V : Type} {first first' : ℕ → Option V} {released : List V}

/-- The values are the first ones, in the order of their numbers. -/
def InOrder (first : ℕ → Option V) (released : List V) : Prop :=
  released.map some = (List.range released.length).map first

theorem inOrder_nil : InOrder first [] := rfl

theorem inOrder_append_singleton {v : V} :
    InOrder first (released ++ [v]) ↔ InOrder first released ∧ first released.length = some v := by
  rw [InOrder, InOrder, List.map_append, List.length_append, List.length_singleton,
    List.range_succ, List.map_append]
  constructor
  · intro h
    obtain ⟨hinit, hlast⟩ := List.append_inj h (by simp)
    exact ⟨hinit, (List.cons.inj hlast).1.symm⟩
  · rintro ⟨hinit, hlast⟩
    rw [hinit, List.map_singleton, List.map_singleton, hlast]

theorem InOrder.left {released' : List V} (h : InOrder first (released ++ released')) :
    InOrder first released := by
  induction released' using List.reverseRecOn with
  | nil => rwa [List.append_nil] at h
  | append_singleton released' v ih =>
    rw [← List.append_assoc] at h
    exact ih (inOrder_append_singleton.1 h).1

theorem InOrder.congr (h : InOrder first released)
    (hfirst : ∀ seq < released.length, first' seq = first seq) : InOrder first' released := by
  rw [InOrder] at h ⊢
  rw [h]
  exact List.map_congr_left fun seq hseq => (hfirst seq (List.mem_range.1 hseq)).symm

theorem InOrder.isSome (h : InOrder first released) {seq : ℕ} (hseq : seq < released.length) :
    (first seq).isSome := by
  have hmem : first seq ∈ released.map some := by
    rw [h]
    exact List.mem_map_of_mem (List.mem_range.2 hseq)
  obtain ⟨v, -, hv⟩ := List.mem_map.1 hmem
  rw [← hv, isSome_some]

end

/-! ## The invariant -/

open OrderedCiphertextFrames List SortedMap

theorem firstCopy_append (frames : List Frame) (f : Frame) (seq : ℕ) :
    firstCopy (frames ++ [f]) seq =
      (firstCopy frames seq).or (if f.seq = seq then some f.payload else none) := by
  rw [firstCopy, firstCopy, find?_append, map_or, find?_singleton]
  by_cases h : f.seq = seq <;> simp [h]

variable {frames : List Frame} {f : Frame}

theorem firstCopy_append_of_isSome (h : (firstCopy frames f.seq).isSome) :
    firstCopy (frames ++ [f]) = firstCopy frames := by
  funext seq
  rw [firstCopy_append]
  by_cases hseq : f.seq = seq
  · subst hseq
    obtain ⟨payload, hpayload⟩ := isSome_iff_exists.1 h
    rw [hpayload, some_or]
  · rw [if_neg hseq, or_none]

theorem firstCopy_append_self (h : firstCopy frames f.seq = none) :
    firstCopy (frames ++ [f]) f.seq = some f.payload := by
  rw [firstCopy_append, h, if_pos rfl, none_or]

variable {seq : ℕ}

theorem firstCopy_append_of_ne (h : f.seq ≠ seq) :
    firstCopy (frames ++ [f]) seq = firstCopy frames seq := by
  rw [firstCopy_append, if_neg h, or_none]

/-- The buffer holds the first copies from the next number on, within its limits. -/
structure Buffered (first : ℕ → Option Payload) (s : OrderedCiphertextFrames) : Prop where
  sorted : SortedMap.Sorted s.pending
  get_pending : ∀ seq, s.nextSeq ≤ seq → SortedMap.get seq s.pending = first seq
  window : ∀ e ∈ s.pending,
    s.nextSeq ≤ e.1 ∧ e.1 ≤ s.nextSeq + maxReorderDistance ∧ e.1 < 2 ^ 32
  bytes : s.pendingBytes = SortedMap.total List.length s.pending
  bytes_le : s.pendingBytes ≤ maxPendingBytes
  nextSeq_lt : s.nextSeq < 2 ^ 32

/-- The numbers below the next one are released, and the next one is missing. -/
structure Waiting (first : ℕ → Option Payload) (released : List Payload)
    (s : OrderedCiphertextFrames) : Prop where
  buffered : Buffered first s
  inOrder : InOrder first released
  length_released : released.length = s.nextSeq
  missing : first s.nextSeq = none

/-- Every number was received; the last error dropped what was ready then. -/
structure Exhausted (first : ℕ → Option Payload) (released : List Payload)
    (s : OrderedCiphertextFrames) : Prop where
  inOrder : InOrder first released
  all : ∀ seq < 2 ^ 32, (first seq).isSome
  nextSeq_eq : s.nextSeq + 1 = 2 ^ 32
  pending_eq : s.pending = []
  pendingBytes_eq : s.pendingBytes = 0

/-- The invariant of the buffer. -/
def Delivering (t : Trace) : Prop :=
  Waiting (firstCopy t.received) t.released t.state ∨
    Exhausted (firstCopy t.received) t.released t.state

variable {released : List Payload} {s : OrderedCiphertextFrames}

theorem Waiting.window {first : ℕ → Option Payload} (h : Waiting first released s) {e : ℕ × Payload}
    (he : e ∈ s.pending) : s.nextSeq < e.1 ∧ e.1 ≤ s.nextSeq + maxReorderDistance := by
  obtain ⟨hle, hwindow, -⟩ := h.buffered.window e he
  refine ⟨Nat.lt_of_le_of_ne hle fun heq => ?_, hwindow⟩
  have hget := get_of_mem h.buffered.sorted he
  rw [← heq, h.buffered.get_pending _ (Nat.le_refl _), h.missing] at hget
  cases hget

section
variable {first : ℕ → Option Payload} {s : OrderedCiphertextFrames}

theorem advance_eq_some {s' : OrderedCiphertextFrames} (h : s.advance = some s') :
    s' = { s with nextSeq := s.nextSeq + 1 } ∧ s.nextSeq + 1 < 2 ^ 32 := by
  rw [advance] at h
  split_ifs at h with hlt
  exact ⟨(some.inj h).symm, hlt⟩

theorem advance_eq_none (h : s.advance = none) : 2 ^ 32 ≤ s.nextSeq + 1 := by
  rw [advance] at h
  split_ifs at h with hlt
  exact Nat.not_lt.1 hlt

/-- The state in which the number of the last record cannot be passed. -/
theorem Exhausted.of_last {released : List Payload} (hmax : s.advance = none)
    (hnext : s.nextSeq < 2 ^ 32) (hinOrder : InOrder first released)
    (hall : ∀ seq < s.nextSeq, (first seq).isSome) (hself : (first s.nextSeq).isSome)
    (hpending : ∀ e ∈ s.pending, s.nextSeq < e.1 ∧ e.1 < 2 ^ 32)
    (hbytes : s.pendingBytes = total List.length s.pending) : Exhausted first released s := by
  have hlast : s.nextSeq + 1 = 2 ^ 32 := Nat.le_antisymm hnext (advance_eq_none hmax)
  have hempty : s.pending = [] := by
    refine eq_nil_iff_forall_not_mem.2 fun e he => ?_
    have := hpending e he
    omega
  refine ⟨hinOrder, fun seq hseq => ?_, hlast, hempty, ?_⟩
  · rcases Nat.lt_or_ge seq s.nextSeq with hlt | hge
    · exact hall seq hlt
    · obtain rfl : seq = s.nextSeq := by omega
      exact hself
  · rw [hbytes, hempty]
    rfl

/-- The expected frame leaves the buffer. -/
theorem Buffered.erase (h : Buffered first s) {payload : Payload}
    (hget : get s.nextSeq s.pending = some payload) :
    let pending := erase s.nextSeq s.pending
    SortedMap.Sorted pending ∧ (∀ seq, s.nextSeq < seq → get seq pending = first seq) ∧
      (∀ e ∈ pending, s.nextSeq < e.1 ∧ e.1 ≤ s.nextSeq + maxReorderDistance ∧ e.1 < 2 ^ 32) ∧
      s.pendingBytes - payload.length = total List.length pending := by
  refine ⟨h.sorted.erase, fun seq hseq => ?_, fun e he => ?_, ?_⟩
  · rw [get_erase, if_neg (Nat.ne_of_gt hseq), h.get_pending seq (Nat.le_of_lt hseq)]
  · obtain ⟨he, hne⟩ := mem_filter.1 he
    obtain ⟨hle, hwindow⟩ := h.window e he
    exact ⟨Nat.lt_of_le_of_ne hle (of_decide_eq_true hne), hwindow⟩
  · rw [h.bytes, total_erase List.length h.sorted hget, Nat.add_sub_cancel_left]

/-- What the loop leaves: the next number is missing, or all numbers are used up. -/
theorem drain_spec (fuel : ℕ) {released ready : List Payload} (h : Buffered first s)
    (hinOrder : InOrder first (released ++ ready))
    (hlength : (released ++ ready).length = s.nextSeq) (hfuel : s.pending.length ≤ fuel) :
    (∃ out s', drain fuel s ready = (.ok out, s') ∧ Waiting first (released ++ out) s') ∨
      ∃ s', drain fuel s ready = (.error .sequenceExhausted, s') ∧ Exhausted first released s' := by
  induction fuel generalizing s ready with
  | zero =>
    have hpending : s.pending = [] := length_eq_zero_iff.1 (Nat.le_zero.1 hfuel)
    refine Or.inl ⟨ready, s, rfl, h, hinOrder, hlength, ?_⟩
    rw [← h.get_pending _ (Nat.le_refl _), hpending, get_nil]
  | succ fuel ih =>
    rw [drain]
    cases hget : get s.nextSeq s.pending with
    | none =>
      refine Or.inl ⟨ready, s, rfl, h, hinOrder, hlength, ?_⟩
      rw [← h.get_pending _ (Nat.le_refl _), hget]
    | some payload =>
      have hpayload : first s.nextSeq = some payload := by
        rw [← h.get_pending _ (Nat.le_refl _), hget]
      obtain ⟨hsorted, hpending, hwindow, hbytes⟩ := h.erase hget
      dsimp only
      cases hadvance : advance { s with
          pending := erase s.nextSeq s.pending
          pendingBytes := s.pendingBytes - payload.length } with
      | none =>
        refine Or.inr ⟨_, rfl, .of_last hadvance h.nextSeq_lt hinOrder.left (fun seq hseq => ?_)
          (isSome_iff_exists.2 ⟨payload, hpayload⟩)
          (fun e he => ⟨(hwindow e he).1, (hwindow e he).2.2⟩) hbytes⟩
        exact hinOrder.isSome (hlength ▸ hseq)
      | some s' =>
        obtain ⟨rfl, hlt⟩ := advance_eq_some hadvance
        have hnext := inOrder_append_singleton.2 ⟨hinOrder, hlength ▸ hpayload⟩
        rw [append_assoc] at hnext
        refine ih ⟨hsorted, fun seq hseq => hpending seq hseq, fun e he => ?_, hbytes, ?_, hlt⟩ hnext
          ?_ ?_
        · obtain ⟨hgt, hle, hmax⟩ := hwindow e he
          exact ⟨hgt, Nat.le_trans hle (Nat.add_le_add_right (Nat.le_succ _) _), hmax⟩
        · exact Nat.le_trans (Nat.sub_le _ _) h.bytes_le
        · rw [← append_assoc, length_append, hlength]
          rfl
        · exact Nat.le_of_lt_succ (Nat.lt_of_lt_of_le (length_erase_lt hget) hfuel)

end

/-! ## Arrivals keep the invariant -/

theorem push_copy (h : seq < s.nextSeq ∨ (get seq s.pending).isSome) (payload : Payload) :
    s.push seq payload = (.ok [], s) := if_pos h

variable {received : List Frame}

/-- A frame ahead of the expected one is kept. -/
theorem Waiting.ahead (h : Waiting (firstCopy received) released s)
    (hnew : get f.seq s.pending = none) (hseq : s.nextSeq < f.seq)
    (hwindow : f.seq - s.nextSeq ≤ maxReorderDistance)
    (hbytes : s.pendingBytes + f.payload.length ≤ maxPendingBytes) :
    Waiting (firstCopy (received ++ [f])) released
      { s with
        pending := insert f.seq f.payload s.pending
        pendingBytes := s.pendingBytes + f.payload.length } := by
  have hnone : firstCopy received f.seq = none := by
    rw [← h.buffered.get_pending _ (Nat.le_of_lt hseq), hnew]
  refine ⟨⟨h.buffered.sorted.insert, fun seq hle => ?_, fun e he => ?_, ?_, hbytes,
    h.buffered.nextSeq_lt⟩, ?_, h.length_released, ?_⟩
  · rw [get_insert]
    by_cases heq : seq = f.seq
    · rw [if_pos heq, heq, firstCopy_append_self hnone]
    · rw [if_neg heq, firstCopy_append_of_ne (Ne.symm heq), h.buffered.get_pending seq hle]
  · rcases mem_insert he with rfl | he
    · exact ⟨Nat.le_of_lt hseq, Nat.sub_le_iff_le_add'.1 hwindow, f.seq_lt⟩
    · exact h.buffered.window e he
  · rw [total_insert List.length hnew, h.buffered.bytes, Nat.add_comm]
  · refine h.inOrder.congr fun seq hlt => firstCopy_append_of_ne ?_
    rw [h.length_released] at hlt
    omega
  · rw [firstCopy_append_of_ne (Nat.ne_of_gt hseq), h.missing]

/-- The frame with the next number, before the loop. -/
theorem Waiting.next (h : Waiting (firstCopy received) released s) (hseq : f.seq = s.nextSeq) :
    InOrder (firstCopy (received ++ [f])) (released ++ [f.payload]) ∧
      (s.nextSeq + 1 < 2 ^ 32 →
        Buffered (firstCopy (received ++ [f])) { s with nextSeq := s.nextSeq + 1 }) := by
  have hself : firstCopy (received ++ [f]) s.nextSeq = some f.payload := by
    rw [← hseq]
    exact firstCopy_append_self (hseq ▸ h.missing)
  have hother : ∀ seq, seq ≠ s.nextSeq → firstCopy (received ++ [f]) seq = firstCopy received seq :=
    fun seq hne => firstCopy_append_of_ne (hseq ▸ hne.symm)
  refine ⟨inOrder_append_singleton.2 ⟨?_, h.length_released ▸ hself⟩, fun hlt =>
    ⟨h.buffered.sorted, fun seq hle => ?_, fun e he => ?_, h.buffered.bytes, h.buffered.bytes_le,
      hlt⟩⟩
  · exact h.inOrder.congr fun seq hlt => hother seq (Nat.ne_of_lt (h.length_released ▸ hlt))
  · rw [hother seq (Nat.ne_of_gt hle), h.buffered.get_pending seq (Nat.le_of_succ_le hle)]
  · obtain ⟨hgt, hle⟩ := h.window he
    exact ⟨hgt, Nat.le_trans hle (Nat.add_le_add_right (Nat.le_succ _) _),
      (h.buffered.window e he).2.2⟩

/-- What an arrival does to a buffer that waits for a number. -/
theorem Waiting.push (h : Waiting (firstCopy received) released s) (f : Frame) :
    (∃ out s', s.push f.seq f.payload = (.ok out, s') ∧
        Waiting (firstCopy (received ++ [f])) (released ++ out) s') ∨
      (∃ e : PushError, e.Rejects ∧ s.push f.seq f.payload = (.error e, s)) ∨
      ∃ s', s.push f.seq f.payload = (.error .sequenceExhausted, s') ∧
        Exhausted (firstCopy (received ++ [f])) released s' := by
  by_cases hcopy : f.seq < s.nextSeq ∨ (get f.seq s.pending).isSome
  · have hreceived : (firstCopy received f.seq).isSome := by
      by_cases hlt : f.seq < s.nextSeq
      · exact h.inOrder.isSome (h.length_released ▸ hlt)
      · rw [← h.buffered.get_pending _ (Nat.not_lt.1 hlt)]
        exact hcopy.resolve_left hlt
    refine Or.inl ⟨[], s, push_copy hcopy _, ?_⟩
    rwa [firstCopy_append_of_isSome hreceived, append_nil]
  · obtain ⟨hge, hnone⟩ := not_or.1 hcopy
    rw [not_isSome_iff_eq_none] at hnone
    rw [OrderedCiphertextFrames.push, if_neg hcopy]
    by_cases hahead : s.nextSeq < f.seq
    · rw [if_pos hahead]
      by_cases hwindow : maxReorderDistance < f.seq - s.nextSeq
      · exact Or.inr (Or.inl ⟨.exceedsReorderWindow, nofun, if_pos hwindow⟩)
      · rw [if_neg hwindow]
        by_cases hbytes : maxPendingBytes < s.pendingBytes + f.payload.length
        · exact Or.inr (Or.inl ⟨.bufferFull, nofun, if_pos hbytes⟩)
        · refine Or.inl ⟨[], _, if_neg hbytes, ?_⟩
          rw [append_nil]
          exact h.ahead hnone hahead (Nat.not_lt.1 hwindow) (Nat.not_lt.1 hbytes)
    · rw [if_neg hahead]
      have hseq : f.seq = s.nextSeq := by omega
      obtain ⟨hinOrder, hbuffered⟩ := h.next hseq
      have hlength : (released ++ [f.payload]).length = s.nextSeq + 1 := by
        rw [length_append, h.length_released, length_singleton]
      cases hadvance : s.advance with
      | none =>
        refine Or.inr (Or.inr ⟨s, rfl, .of_last hadvance h.buffered.nextSeq_lt hinOrder.left
          (fun seq hlt => hinOrder.isSome ?_) (hinOrder.isSome ?_)
          (fun e he => ⟨(h.window he).1, (h.buffered.window e he).2.2⟩) h.buffered.bytes⟩)
        · omega
        · omega
      | some s' =>
        obtain ⟨rfl, hlt⟩ := advance_eq_some hadvance
        exact (drain_spec _ (hbuffered hlt) hinOrder hlength (Nat.le_refl _)).imp_right Or.inr

/-- After the last number only copies arrive; the one of the last number fails again. -/
theorem Exhausted.push {first : ℕ → Option Payload} (h : Exhausted first released s) (f : Frame) :
    s.push f.seq f.payload = (.ok [], s) ∨
      s.push f.seq f.payload = (.error .sequenceExhausted, s) := by
  have hle : f.seq < s.nextSeq + 1 := h.nextSeq_eq ▸ f.seq_lt
  by_cases hlt : f.seq < s.nextSeq
  · exact Or.inl (push_copy (Or.inl hlt) _)
  · have hcopy : ¬(f.seq < s.nextSeq ∨ (get f.seq s.pending).isSome) := by
      rw [h.pending_eq]
      simpa using hlt
    have hadvance : s.advance = none := if_neg (by rw [h.nextSeq_eq]; exact Nat.lt_irrefl _)
    rw [OrderedCiphertextFrames.push, if_neg hcopy, if_neg (by omega), hadvance]
    exact Or.inr rfl

/-- Every arrival keeps the invariant. -/
theorem delivering_push {t : Trace} (h : Delivering t) (f : Frame) : Delivering (t.push f) := by
  rcases h with h | h
  · rcases h.push f with ⟨out, s', hpush, hs'⟩ | ⟨e, hrejects, hpush⟩ | ⟨s', hpush, hs'⟩
    · rw [Trace.push, hpush]
      exact Or.inl hs'
    · rw [Trace.push, hpush]
      dsimp only
      rw [if_pos hrejects]
      exact Or.inl h
    · rw [Trace.push, hpush]
      exact Or.inr hs'
  · have hsame : firstCopy (t.received ++ [f]) = firstCopy t.received :=
      firstCopy_append_of_isSome (h.all f.seq f.seq_lt)
    rcases h.push f with hpush | hpush
    · rw [Trace.push, hpush]
      refine Or.inr ?_
      show Exhausted (firstCopy (t.received ++ [f])) (t.released ++ []) t.state
      rwa [hsame, append_nil]
    · rw [Trace.push, hpush]
      refine Or.inr ?_
      show Exhausted (firstCopy (t.received ++ [f])) t.released t.state
      rwa [hsame]

theorem delivering_trace (frames : List Frame) : Delivering (trace frames) := by
  have hinit : Delivering {} :=
    Or.inl ⟨⟨List.Pairwise.nil, fun _ _ => rfl, fun _ h => absurd h not_mem_nil, rfl,
      Nat.zero_le _, by decide⟩, inOrder_nil, rfl, rfl⟩
  rw [trace]
  induction frames using List.reverseRecOn with
  | nil => exact hinit
  | append_singleton frames f ih =>
    rw [foldl_append]
    exact delivering_push ih f

/-! ## What is released -/

theorem drain_error {fuel : ℕ} {ready : List Payload} {e : PushError}
    (h : (drain fuel s ready).1 = .error e) : e = .sequenceExhausted := by
  induction fuel generalizing s ready with
  | zero => cases h
  | succ fuel ih =>
    rw [drain] at h
    split at h
    · cases h
    · dsimp only at h
      split at h
      · exact (Except.error.inj h).symm
      · exact ih h

theorem push_rejected {payload : Payload} {e : PushError}
    (herror : (s.push seq payload).1 = .error e) (hrejects : e.Rejects) :
    (s.push seq payload).2 = s := by
  rw [OrderedCiphertextFrames.push] at herror ⊢
  split_ifs at herror ⊢
  · rfl
  · rfl
  · split at herror
    · exact absurd (Except.error.inj herror).symm hrejects
    · exact absurd (drain_error herror) hrejects

/-- **In order, once, and at once.**  After any arrivals, the released payloads are the
first copies of 0, 1, 2, … that were not rejected; unless all 2³² numbers are used up, the
number behind them is missing and is the one the buffer expects.  The buffered records lie
within the window, the counter is their size, and a rejected frame changes nothing. -/
theorem released_in_order (frames : List Frame) :
    let t := trace frames
    t.released.map some = (List.range t.released.length).map (firstCopy t.received) ∧
    ((∃ seq < 2 ^ 32, firstCopy t.received seq = none) →
      firstCopy t.received t.released.length = none ∧ t.state.nextSeq = t.released.length) ∧
    (∀ e ∈ t.state.pending,
      t.state.nextSeq < e.1 ∧ e.1 ≤ t.state.nextSeq + maxReorderDistance) ∧
    t.state.pendingBytes = (t.state.pending.map (·.2.length)).sum ∧
    t.state.pendingBytes ≤ maxPendingBytes ∧
    ∀ seq payload e, (t.state.push seq payload).1 = .error e → e.Rejects →
      (t.state.push seq payload).2 = t.state := by
  intro t
  have hrejected : ∀ seq payload e, (t.state.push seq payload).1 = .error e → e.Rejects →
      (t.state.push seq payload).2 = t.state := fun _ _ _ => push_rejected
  rcases delivering_trace frames with h | h
  · exact ⟨h.inOrder, fun _ => ⟨h.length_released ▸ h.missing, h.length_released.symm⟩,
      fun e he => h.window he, h.buffered.bytes, h.buffered.bytes_le, hrejected⟩
  · refine ⟨h.inOrder, fun ⟨seq, hseq, hnone⟩ => ?_, fun e he => ?_, ?_, ?_, hrejected⟩
    · have := h.all seq hseq
      rw [hnone] at this
      cases this
    · rw [h.pending_eq] at he
      cases he
    · rw [h.pending_eq]
      exact h.pendingBytes_eq
    · rw [h.pendingBytes_eq]
      exact Nat.zero_le _

/-- A copy of 65 ahead of the window, the numbers up to 64, and 65 again. -/
def rejectedFirst : List Frame :=
  ⟨65, [1], by decide⟩ ::
    (List.ofFn fun i : Fin 65 => ⟨i, [2], i.2.trans (by decide)⟩) ++ [⟨65, [3], by decide⟩]

/-- The first copy of 65 is rejected, and the second one is released. -/
theorem rejected_copy_is_not_the_first :
    firstCopy rejectedFirst 65 = some [1] ∧ (trace rejectedFirst).released.length = 66 ∧
      (trace rejectedFirst).released[65]? = some [3] := by
  decide +kernel

end NoiseRelay
