/-
# The head-tail buffer

A buffer of bounded size for the output of a command: it keeps the first bytes and the
newest bytes, and counts those that it left out between them.
-/
import BetterCodex.RustStr

namespace HeadTail

open RustStr List

abbrev Bytes : Type := List UInt8

def saturatingAdd (a b : ℕ) : ℕ := min (a + b) usizeMax

/-- `HeadTailBuffer<MAX_BYTES>`. -/
structure HeadTailBuffer (maxBytes : ℕ) where
  head : Bytes := []
  tail : Bytes := []
  omittedBytes : ℕ := 0
  deriving DecidableEq, Repr

def headBudget (maxBytes : ℕ) : ℕ := maxBytes / 2

def tailBudget (maxBytes : ℕ) : ℕ := maxBytes - headBudget maxBytes

variable (maxBytes : ℕ)

theorem headBudget_add_tailBudget : headBudget maxBytes + tailBudget maxBytes = maxBytes :=
  Nat.add_sub_of_le (Nat.div_le_self maxBytes 2)

namespace HeadTailBuffer

variable {maxBytes : ℕ} (b : HeadTailBuffer maxBytes)

/-- `fill_head`, with the bytes that did not fit. -/
def fillHead (chunk : Bytes) : HeadTailBuffer maxBytes × Bytes :=
  let remainingHead := headBudget maxBytes - b.head.length
  -- a shorter chunk fits entirely in the head
  let (chunkHead, chunkTail) :=
    if remainingHead ≤ chunk.length then chunk.splitAt remainingHead else (chunk, [])
  ({ b with head := b.head ++ chunkHead }, chunkTail)

def pushTail (chunk : Bytes) : HeadTailBuffer maxBytes :=
  let remainingTail := tailBudget maxBytes - b.tail.length
  let excessTail := chunk.length - remainingTail
  { b with
    tail :=
      if excessTail < b.tail.length then b.tail.drop excessTail ++ chunk
      else chunk.drop (excessTail - b.tail.length)
    omittedBytes := saturatingAdd b.omittedBytes excessTail }

def pushChunk (chunk : Bytes) : HeadTailBuffer maxBytes :=
  let (b, chunk) := b.fillHead chunk
  b.pushTail chunk

/-- The first part of `push_buffer`: the head, and the bytes of the other head that did
not fit. -/
def takeHead (head : Bytes) : HeadTailBuffer maxBytes × Bytes :=
  if b.head.isEmpty then ({ b with head }, []) else b.fillHead head

/-- The second part of `push_buffer`, behind the head; `cut` is where the ring of the
source tail wraps. -/
def takeTail (overflow tail : Bytes) (cut : ℕ) :
    HeadTailBuffer maxBytes :=
  if tail.length = tailBudget maxBytes then
    { b with
      tail
      omittedBytes := saturatingAdd (saturatingAdd b.omittedBytes b.tail.length) overflow.length }
  else
    let b := b.pushTail overflow
    if b.tail.isEmpty then { b with tail }
    else (b.pushTail (tail.take cut)).pushTail (tail.drop cut)

def pushBuffer (b source : HeadTailBuffer maxBytes) (cut : ℕ) : HeadTailBuffer maxBytes :=
  let b := { b with omittedBytes := saturatingAdd b.omittedBytes source.omittedBytes }
  let (b, overflow) := b.takeHead source.head
  b.takeTail overflow source.tail cut

def toBytes : Bytes := b.head ++ b.tail

end HeadTailBuffer

/-! ## Summaries -/

/-- The newest bytes of a sequence, up to a number of them. -/
def newest (count : ℕ) (bytes : Bytes) : Bytes := bytes.drop (bytes.length - count)

theorem length_newest (count : ℕ) (bytes : Bytes) :
    (newest count bytes).length = min count bytes.length := by
  rw [newest, length_drop]
  omega

theorem newest_of_length_le {count : ℕ} {bytes : Bytes} (h : bytes.length ≤ count) :
    newest count bytes = bytes := by
  rw [newest, Nat.sub_eq_zero_of_le h, drop_zero]

/-- Enough later bytes displace all earlier ones. -/
theorem newest_append_of_le_length {count : ℕ} (older : Bytes) {later : Bytes}
    (h : count ≤ later.length) : newest count (older ++ later) = newest count later := by
  rw [newest, newest, drop_append, drop_eq_nil_of_le (by rw [length_append]; omega),
    nil_append, length_append]
  congr 1
  omega

/-- What a buffer keeps of the bytes that it received. -/
def summary (maxBytes : ℕ) (bytes : Bytes) : HeadTailBuffer maxBytes where
  head := bytes.take (headBudget maxBytes)
  tail := newest (tailBudget maxBytes) (bytes.drop (headBudget maxBytes))
  omittedBytes := min (bytes.length - maxBytes) usizeMax

/-- The buffer is a head, and the summary of the bytes behind it. -/
structure Keeps {maxBytes : ℕ} (b : HeadTailBuffer maxBytes) (head rest : Bytes) : Prop where
  head_eq : b.head = head
  tail_eq : b.tail = newest (tailBudget maxBytes) rest
  omitted_eq : b.omittedBytes = min (rest.length - tailBudget maxBytes) usizeMax

section
variable {maxBytes : ℕ} {b : HeadTailBuffer maxBytes} {head rest : Bytes}

theorem keeps_summary (maxBytes : ℕ) (bytes : Bytes) :
    Keeps (summary maxBytes bytes) (bytes.take (headBudget maxBytes))
      (bytes.drop (headBudget maxBytes)) := by
  refine ⟨rfl, rfl, ?_⟩
  have hbudget := headBudget_add_tailBudget maxBytes
  show min (bytes.length - maxBytes) usizeMax = _
  rw [length_drop, Nat.sub_sub, hbudget]

open HeadTailBuffer

theorem Keeps.eq_summary {bytes : Bytes}
    (h : Keeps b (bytes.take (headBudget maxBytes)) (bytes.drop (headBudget maxBytes))) :
    b = summary maxBytes bytes := by
  obtain ⟨hhead, htail, homitted⟩ := keeps_summary maxBytes bytes
  cases b
  simp only [summary, mk.injEq]
  exact ⟨h.head_eq, h.tail_eq, h.omitted_eq.trans homitted.symm⟩

theorem Keeps.length_tail (h : Keeps b head rest) :
    b.tail.length = min (tailBudget maxBytes) rest.length := by
  rw [h.tail_eq, length_newest]

/-! ## Pushing -/

/-- **Pushing behind the head** appends to what is behind it. -/
theorem Keeps.pushTail (h : Keeps b head rest) (chunk : Bytes) :
    Keeps (b.pushTail chunk) head (rest ++ chunk) := by
  have hlength := h.length_tail
  refine ⟨h.head_eq, ?_, ?_⟩
  · rw [HeadTailBuffer.pushTail]
    dsimp only
    rw [newest, drop_append, length_append]
    by_cases hroom : chunk.length - (tailBudget maxBytes - b.tail.length) < b.tail.length
    · -- the chunk displaces a part of the old tail
      rw [if_pos hroom, h.tail_eq, newest, drop_drop]
      congr 1
      · congr 1
        rw [← newest, ← h.tail_eq]
        omega
      · rw [Nat.sub_eq_zero_of_le (by omega), drop_zero]
    · -- the chunk displaces all of it
      have hold : rest.drop (rest.length + chunk.length - tailBudget maxBytes) = [] :=
        drop_eq_nil_of_le (by omega)
      rw [if_neg hroom, hold, nil_append]
      congr 1
      omega
  · rw [HeadTailBuffer.pushTail]
    dsimp only
    rw [saturatingAdd, h.omitted_eq, length_append]
    omega

/-- Filling the head splits the chunk where the head ends. -/
theorem fillHead_eq (b : HeadTailBuffer maxBytes) (chunk : Bytes) :
    b.fillHead chunk =
      ({ b with head := b.head ++ chunk.take (headBudget maxBytes - b.head.length) },
        chunk.drop (headBudget maxBytes - b.head.length)) := by
  rw [fillHead]
  split_ifs with hfits
  · rw [splitAt_eq]
  · rw [take_of_length_le (by omega), drop_eq_nil_of_le (by omega)]

variable (bytes chunk : Bytes)

theorem take_append_take (n : ℕ) :
    bytes.take n ++ chunk.take (n - (bytes.take n).length) = (bytes ++ chunk).take n := by
  rw [take_append, length_take]
  congr 2
  omega

/-- **A chunk** is appended to the bytes that were received. -/
theorem pushChunk_summary :
    (summary maxBytes bytes).pushChunk chunk = summary maxBytes (bytes ++ chunk) := by
  apply Keeps.eq_summary
  have hfilled : Keeps ((summary maxBytes bytes).fillHead chunk).1
      ((bytes ++ chunk).take (headBudget maxBytes)) (bytes.drop (headBudget maxBytes)) := by
    rw [fillHead_eq]
    obtain ⟨-, htail, homitted⟩ := keeps_summary maxBytes bytes
    exact ⟨take_append_take bytes chunk _, htail, homitted⟩
  have hrest : (bytes ++ chunk).drop (headBudget maxBytes) =
      bytes.drop (headBudget maxBytes) ++ ((summary maxBytes bytes).fillHead chunk).2 := by
    rw [fillHead_eq, drop_append, summary, length_take]
    congr 2
    omega
  rw [hrest]
  exact hfilled.pushTail _

/-- The head of a merged buffer, and what did not fit of the other head. -/
theorem takeHead_eq {bytes : Bytes} (hhead : b.head = bytes.take (headBudget maxBytes))
    (later : Bytes) :
    b.takeHead (later.take (headBudget maxBytes)) =
      ({ b with head := (bytes ++ later).take (headBudget maxBytes) },
        (later.take (headBudget maxBytes)).drop (headBudget maxBytes - bytes.length)) := by
  rw [takeHead]
  by_cases hempty : b.head.isEmpty
  · -- nothing was received yet, or there is no room for a head
    have hnone : headBudget maxBytes - bytes.length = headBudget maxBytes ∧
        (bytes ++ later).take (headBudget maxBytes) = later.take (headBudget maxBytes) := by
      rw [hhead, List.isEmpty_iff] at hempty
      rcases take_eq_nil_iff.1 hempty with hzero | rfl
      · rw [hzero]
        exact ⟨Nat.zero_sub _, by rw [take_zero, take_zero]⟩
      · exact ⟨rfl, rfl⟩
    rw [if_pos hempty, hnone.1, hnone.2, drop_eq_nil_of_le (length_take_le _ _)]
  · have hroom : headBudget maxBytes - b.head.length = headBudget maxBytes - bytes.length := by
      rw [hhead, length_take]
      omega
    have hfilled : b.head ++ (later.take (headBudget maxBytes)).take (headBudget maxBytes - bytes.length) =
        (bytes ++ later).take (headBudget maxBytes) := by
      rw [hhead, take_take, Nat.min_eq_left (Nat.sub_le _ _), take_append]
    rw [if_neg hempty, fillHead_eq, hroom, hfilled]

variable (later : Bytes)

/-- **Merging behind the head**: the tail of another buffer, with its omitted bytes added
before, stands for all the bytes behind its own head. -/
theorem keeps_takeTail (hhead : b.head = head) (htail : b.tail = newest (tailBudget maxBytes) rest)
    (homitted : b.omittedBytes = saturatingAdd (min (rest.length - tailBudget maxBytes) usizeMax)
      (min (later.length - tailBudget maxBytes) usizeMax)) (overflow : Bytes) (cut : ℕ) :
    Keeps (b.takeTail overflow (newest (tailBudget maxBytes) later) cut) head
      (rest ++ overflow ++ later) := by
  rw [saturatingAdd] at homitted
  rw [takeTail]
  by_cases hfull : tailBudget maxBytes ≤ later.length
  · -- a full source tail displaces everything before it
    rw [if_pos (by rw [length_newest]; omega)]
    refine ⟨hhead, (newest_append_of_le_length _ hfull).symm, ?_⟩
    have hlength : b.tail.length = min (tailBudget maxBytes) rest.length := by
      rw [htail, length_newest]
    simp only [saturatingAdd, length_append]
    omega
  · have hpartial : newest (tailBudget maxBytes) later = later := newest_of_length_le (by omega)
    have hbefore : Keeps b head rest := ⟨hhead, htail, by omega⟩
    have hoverflow := hbefore.pushTail overflow
    rw [if_neg (by rw [length_newest]; omega), hpartial]
    by_cases hempty : (b.pushTail overflow).tail.isEmpty
    · -- nothing stands behind the head yet
      have hnone : rest ++ overflow = [] := by
        have hlength := hoverflow.length_tail
        rw [isEmpty_iff.1 hempty, length_nil] at hlength
        exact length_eq_zero_iff.1 (by omega)
      have hzero := hoverflow.omitted_eq
      rw [hnone, length_nil] at hzero
      rw [if_pos hempty, hnone, nil_append]
      refine ⟨hoverflow.head_eq, hpartial.symm, ?_⟩
      show (b.pushTail overflow).omittedBytes = _
      omega
    · rw [if_neg hempty]
      have hboth := (hoverflow.pushTail (later.take cut)).pushTail (later.drop cut)
      rwa [append_assoc _ (later.take cut), take_append_drop] at hboth

theorem drop_append_eq (n : ℕ) :
    (bytes ++ later).drop n =
      bytes.drop n ++ (later.take n).drop (n - bytes.length) ++ later.drop n := by
  have hlater : later.drop (n - bytes.length) =
      (later.take n).drop (n - bytes.length) ++ later.drop n := by
    conv_lhs => rw [← take_append_drop n later]
    by_cases hlong : n ≤ later.length
    · have hlength : (later.take n).length = n := length_take_of_le hlong
      rw [drop_append, hlength, Nat.sub_eq_zero_of_le (Nat.sub_le _ _), drop_zero]
    · have hnone : later.drop n = [] := drop_eq_nil_of_le (by omega)
      rw [hnone, append_nil, append_nil]
  rw [drop_append, hlater, append_assoc]

/-- **Another buffer** is appended as all the bytes that it received. -/
theorem pushBuffer_summary (cut : ℕ) :
    (summary maxBytes bytes).pushBuffer (summary maxBytes later) cut =
      summary maxBytes (bytes ++ later) := by
  apply Keeps.eq_summary
  obtain ⟨hhead, htail, homitted⟩ := keeps_summary maxBytes bytes
  obtain ⟨hlaterHead, hlaterTail, hlaterOmitted⟩ := keeps_summary maxBytes later
  set merged : HeadTailBuffer maxBytes := { summary maxBytes bytes with
    omittedBytes := saturatingAdd (summary maxBytes bytes).omittedBytes
      (summary maxBytes later).omittedBytes } with hmerged
  have hmergedHead : merged.head = bytes.take (headBudget maxBytes) := hhead
  rw [pushBuffer, ← hmerged, hlaterHead, hlaterTail, takeHead_eq hmergedHead, drop_append_eq]
  apply keeps_takeTail
  · rfl
  · exact htail
  · show saturatingAdd (summary maxBytes bytes).omittedBytes (summary maxBytes later).omittedBytes = _
    rw [homitted, hlaterOmitted]

end

/-! ## Histories -/

/-- How a buffer came about; a merged buffer has a history of its own. -/
inductive History where
  | new
  | pushChunk (history : History) (chunk : Bytes)
  | pushBuffer (history other : History) (cut : ℕ)

/-- All bytes that the buffer received, in order. -/
def History.bytes : History → Bytes
  | new => []
  | pushChunk history chunk => history.bytes ++ chunk
  | pushBuffer history other _ => history.bytes ++ other.bytes

/-- The buffer. -/
def History.buffer (maxBytes : ℕ) : History → HeadTailBuffer maxBytes
  | new => {}
  | pushChunk history chunk => (history.buffer maxBytes).pushChunk chunk
  | pushBuffer history other cut => (history.buffer maxBytes).pushBuffer (other.buffer maxBytes) cut

open History

/-- Whatever its history, a buffer is the summary of the bytes that it received. -/
theorem History.buffer_eq_summary (history : History) :
    history.buffer maxBytes = summary maxBytes history.bytes := by
  induction history with
  | new =>
    apply Keeps.eq_summary
    refine ⟨?_, ?_, ?_⟩
    · rw [bytes, take_nil, buffer]
    · rw [bytes, drop_nil, newest, drop_nil, buffer]
    · simp [bytes, buffer]
  | pushChunk history chunk ih => rw [buffer, ih, pushChunk_summary, bytes]
  | pushBuffer history other cut ih ihother =>
    rw [buffer, ih, ihother, pushBuffer_summary, bytes]

/-- **The state of the buffer**, for every capacity and every history of chunks and merged
buffers: it depends only on the bytes received, namely on the first of them up to half the
capacity, on the newest of the others up to the rest of the capacity, and on their number,
which gives the omitted bytes (up to the largest value of the counter).  Pushing a buffer
is pushing the bytes that it received. -/
theorem buffer_of_history (maxBytes : ℕ) (history : History) :
    (history.buffer maxBytes).head = history.bytes.take (maxBytes / 2) ∧
    (history.buffer maxBytes).tail =
      newest (maxBytes - maxBytes / 2) (history.bytes.drop (maxBytes / 2)) ∧
    (history.buffer maxBytes).omittedBytes = min (history.bytes.length - maxBytes) usizeMax ∧
    (history.bytes.length - maxBytes ≤ usizeMax →
      (history.buffer maxBytes).omittedBytes + (history.buffer maxBytes).toBytes.length =
        history.bytes.length) ∧
    ∀ (other : History) (cut : ℕ),
      (history.buffer maxBytes).pushBuffer (other.buffer maxBytes) cut =
        (history.buffer maxBytes).pushChunk other.bytes := by
  rw [History.buffer_eq_summary]
  refine ⟨rfl, rfl, rfl, fun hcount => ?_, fun other cut => ?_⟩
  · have hbudget := headBudget_add_tailBudget maxBytes
    rw [HeadTailBuffer.toBytes, length_append]
    simp only [summary, length_newest, length_take, length_drop]
    omega
  · rw [History.buffer_eq_summary, pushBuffer_summary, pushChunk_summary]

end HeadTail
