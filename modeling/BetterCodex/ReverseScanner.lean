/-
# The reverse JSONL scanner

`reverse_jsonl_scanner.rs`: the records of a file, separated by newlines, are
read from the last to the first.  The file is read backwards in chunks of
`readChunkSize` bytes; a record that spans chunks is collected in reverse, and
one that exceeds the limit is dropped while it is read.

The invariant `Reads s tail` names the part `tail` of the current record that
lies behind the unread bytes.  A turn keeps `visited (unread ++ tail)` or takes
its first record off (`Reads.turn`), so the `k`-th call returns the `k`-th wanted
record and every later call nothing (`calls_newAt`).
-/
import Mathlib

namespace ReverseJsonl

open List

/-! ## The scanner -/

def readChunkSize : ℕ := 64 * 1024

/-- The byte that separates records. -/
def newline : UInt8 := 0x0a

/-- `u8::is_ascii_whitespace`. -/
def isAsciiWhitespace (b : UInt8) : Bool :=
  b == 0x20 || b == 0x09 || b == 0x0a || b == 0x0c || b == 0x0d

inductive ScanOutcome (T E : Type) where
  | parsed (value : T)
  | rejected (error : E)
  deriving DecidableEq, Repr

/-- `ReverseJsonlScanner`; `chunk` is the part `chunk[..chunk_position]` that is
still to be read. -/
structure Scanner where
  reader : List UInt8
  nextChunkEnd : ℕ
  chunk : List UInt8
  recordReversed : List UInt8
  maxRecordBytes : Option ℕ
  discardingOversizedRecord : Bool
  deriving DecidableEq, Repr

def Scanner.newAt (reader : List UInt8) (endByteOffset : ℕ) : Except String Scanner :=
  if reader.length < endByteOffset then .error "reverse JSONL scan end is past the file"
  else .ok ⟨reader, endByteOffset, [], [], none, false⟩

/-- `with_max_record_bytes`, when there is a limit. -/
def Scanner.withMaxRecordBytes (s : Scanner) (limit : Option ℕ) : Scanner :=
  { s with maxRecordBytes := limit }

/-- `memrchr`: the bytes before and after the last `b`. -/
def memrchr (b : UInt8) : List UInt8 → Option (List UInt8 × List UInt8)
  | [] => none
  | c :: rest =>
    match memrchr b rest with
    | some (before, fragment) => some (c :: before, fragment)
    | none => if c = b then some ([], rest) else none

/-- Read the chunk before `nextChunkEnd`. -/
def Scanner.readChunk (s : Scanner) : Scanner :=
  let readSize := min s.nextChunkEnd readChunkSize
  { s with
    nextChunkEnd := s.nextChunkEnd - readSize
    chunk := (s.reader.drop (s.nextChunkEnd - readSize)).take readSize }

/-- Put a fragment before the bytes of the current record, or give the record up
when it gets too long. -/
def Scanner.collect (s : Scanner) (fragment : List UInt8) : Scanner :=
  if s.discardingOversizedRecord then s
  else if s.maxRecordBytes.any (· < s.recordReversed.length + fragment.length) then
    { s with recordReversed := [], discardingOversizedRecord := true }
  else { s with recordReversed := s.recordReversed ++ fragment.reverse }

section
variable {T E : Type} (fromSlice : List UInt8 → Except E T)

/-- The outcome of a record. -/
def outcome (record : List UInt8) : ScanOutcome T E :=
  match fromSlice record with
  | .ok value => .parsed value
  | .error error => .rejected error

variable (s : Scanner)

def Scanner.finishRecord : Option (ScanOutcome T E) × Scanner :=
  let record := s.recordReversed.reverse
  (if record.all isAsciiWhitespace then none else some (outcome fromSlice record),
    { s with recordReversed := [] })

/-- What a turn of the loop does: go on, or return from the call. -/
inductive Turn (T E : Type) where
  | again (s : Scanner)
  | done (result : Option (ScanOutcome T E)) (s : Scanner)

/-- At the newline before a record. -/
def Scanner.endRecord : Turn T E :=
  if s.discardingOversizedRecord then .again { s with discardingOversizedRecord := false }
  else match s.finishRecord fromSlice with
    | (some result, s) => .done (some result) s
    | (none, s) => .again s

/-- The part of a turn that reads the chunk. -/
def Scanner.readRecord : Turn T E :=
  match memrchr newline s.chunk with
  | some (before, fragment) => { s.collect fragment with chunk := before }.endRecord fromSlice
  | none => .again { s.collect s.chunk with chunk := [] }

/-- One turn of the loop of `scan_next`. -/
def Scanner.turn : Turn T E :=
  if s.chunk = [] then
    if s.nextChunkEnd = 0 then
      if s.discardingOversizedRecord then .done none { s with discardingOversizedRecord := false }
      else .done (s.finishRecord fromSlice).1 (s.finishRecord fromSlice).2
    else s.readChunk.readRecord fromSlice
  else s.readRecord fromSlice

/-- The loop, for at most `fuel` turns; `none` when they do not suffice. -/
def Scanner.loop : ℕ → Scanner → Option (Option (ScanOutcome T E) × Scanner)
  | 0, _ => none
  | fuel + 1, s =>
    match s.turn fromSlice with
    | .again s => Scanner.loop fuel s
    | .done result s => some (result, s)

/-- The bytes left to read. -/
def Scanner.left : ℕ := s.nextChunkEnd + s.chunk.length

def Scanner.scanNext : Option (Option (ScanOutcome T E) × Scanner) :=
  Scanner.loop fromSlice (s.left + 1) s

/-- The results of `n` calls of `scan_next`, one after the other. -/
def Scanner.calls : ℕ → Scanner → Option (List (Option (ScanOutcome T E)))
  | 0, _ => some []
  | n + 1, s => do
    let (result, s) ← s.scanNext fromSlice
    let results ← Scanner.calls n s
    return result :: results

end

/-! ## The records that are wanted -/

/-- The record does not exceed the limit. -/
def fits (limit : Option ℕ) (record : List UInt8) : Bool := limit.all (record.length ≤ ·)

/-- A record to be visited: not blank and within the limit. -/
def wanted (limit : Option ℕ) (record : List UInt8) : Bool :=
  !record.all isAsciiWhitespace && fits limit record

/-- The wanted records among the newline-separated records of a text, last first. -/
def visited (limit : Option ℕ) (text : List UInt8) : List (List UInt8) :=
  (text.splitOn newline).reverse.filter (wanted limit)

theorem visited_line {limit : Option ℕ} {record : List UInt8} (h : newline ∉ record) :
    visited limit record = if wanted limit record then [record] else [] := by
  unfold visited
  rw [splitOn_eq_singleton h]
  simp [filter_cons]

/-- The last record of a text is visited first. -/
theorem visited_concat {limit : Option ℕ} {record : List UInt8} (h : newline ∉ record)
    (text : List UInt8) :
    visited limit (text ++ newline :: record)
      = (if wanted limit record then [record] else []) ++ visited limit text := by
  have hsplit : (text ++ newline :: record).splitOn newline = text.splitOn newline ++ [record] := by
    rw [← splitOn_eq_singleton h]
    exact splitOnP_append_cons text record (beq_self_eq_true newline)
  unfold visited
  rw [hsplit, reverse_append, filter_append]
  simp [filter_cons]

/-! ## The invariant -/

/-- The bytes that were not read yet. -/
def Scanner.unread (s : Scanner) : List UInt8 := s.reader.take s.nextChunkEnd ++ s.chunk

/-- The scanner has read the bytes `tail` of the current record: they are collected, or
the record is being dropped because they exceed the limit. -/
structure Reads (s : Scanner) (tail : List UInt8) : Prop where
  within : s.nextChunkEnd ≤ s.reader.length
  line : newline ∉ tail
  dropped : s.discardingOversizedRecord = !fits s.maxRecordBytes tail
  collected : s.recordReversed = if fits s.maxRecordBytes tail then tail.reverse else []

theorem memrchr_eq_none {b : UInt8} {l : List UInt8} (h : memrchr b l = none) : b ∉ l := by
  fun_induction memrchr b l with
  | case1 => simp
  | case2 => cases h
  | case3 => cases h
  | case4 c rest hnone hc ih => simpa [Ne.symm hc] using ih hnone

theorem memrchr_eq_some {b : UInt8} {l before fragment : List UInt8}
    (h : memrchr b l = some (before, fragment)) : l = before ++ b :: fragment ∧ b ∉ fragment := by
  fun_induction memrchr b l generalizing before with
  | case1 => cases h
  | case2 c rest before' fragment' hrest ih =>
    cases h
    obtain ⟨rfl, hb⟩ := ih hrest
    exact ⟨rfl, hb⟩
  | case3 rest hrest _ =>
    cases h
    exact ⟨rfl, memrchr_eq_none hrest⟩
  | case4 => cases h

variable {s : Scanner}

/-- Collecting a fragment keeps the invariant; nothing else changes. -/
theorem Reads.collect {tail fragment : List UInt8} (h : Reads s tail)
    (hfragment : newline ∉ fragment) (rest : List UInt8) :
    Reads { s.collect fragment with chunk := rest } (fragment ++ tail)
      ∧ Scanner.unread { s.collect fragment with chunk := rest }
        = s.reader.take s.nextChunkEnd ++ rest
      ∧ Scanner.left { s.collect fragment with chunk := rest } = s.nextChunkEnd + rest.length
      ∧ (s.collect fragment).maxRecordBytes = s.maxRecordBytes := by
  obtain ⟨hwithin, hline, hdropped, hcollected⟩ := h
  have hline' : newline ∉ fragment ++ tail := by simp [hfragment, hline]
  -- the longer tail exceeds the limit when the shorter one does
  have hmono : fits s.maxRecordBytes tail = false →
      fits s.maxRecordBytes (fragment ++ tail) = false := by
    unfold fits
    cases s.maxRecordBytes with
    | none => simp
    | some max =>
      simp only [Option.all_some, decide_eq_false_iff_not, length_append]
      omega
  unfold Scanner.collect
  cases hfits : fits s.maxRecordBytes tail with
  | false =>
    rw [if_pos (by simp [hdropped, hfits])]
    refine ⟨⟨hwithin, hline', ?_, ?_⟩, rfl, rfl, rfl⟩
    · simp [hdropped, hfits, hmono hfits]
    · simp [hcollected, hfits, hmono hfits]
  | true =>
    rw [if_neg (by simp [hdropped, hfits])]
    rw [hfits, if_pos rfl] at hcollected
    -- the test of the source is the limit on the longer tail
    have htest : s.maxRecordBytes.any (· < s.recordReversed.length + fragment.length)
        = !fits s.maxRecordBytes (fragment ++ tail) := by
      unfold fits
      cases s.maxRecordBytes with
      | none => rfl
      | some max =>
        simp only [Option.any_some, Option.all_some, hcollected, length_reverse,
          length_append, ← decide_not]
        congr 1
        rw [not_le, Nat.add_comm]
    rw [htest]
    cases hlong : fits s.maxRecordBytes (fragment ++ tail) with
    | false => exact ⟨⟨hwithin, hline', by simp [hlong], by simp [hlong]⟩, rfl, rfl, rfl⟩
    | true =>
      refine ⟨⟨hwithin, hline', ?_, ?_⟩, rfl, rfl, rfl⟩
      · simp [hlong, hdropped, hfits]
      · simp [hlong, hcollected]

/-- With nothing collected the next record starts. -/
theorem reads_nil (hwithin : s.nextChunkEnd ≤ s.reader.length) (hrecord : s.recordReversed = [])
    (hdrop : s.discardingOversizedRecord = false) : Reads s [] := by
  have hfits : fits s.maxRecordBytes [] = true := by
    unfold fits
    cases s.maxRecordBytes <;> simp
  exact ⟨hwithin, by simp, by simp [hfits, hdrop], by simp [hfits, hrecord]⟩

/-- Reading a chunk moves bytes from the reader to the chunk. -/
theorem Reads.readChunk {tail : List UInt8} (h : Reads s tail) (hchunk : s.chunk = [])
    (hend : s.nextChunkEnd ≠ 0) :
    Reads s.readChunk tail ∧ s.readChunk.unread = s.unread ∧ s.readChunk.left = s.left
      ∧ s.readChunk.chunk ≠ [] := by
  have hwithin := h.within
  have hsize : 0 < min s.nextChunkEnd readChunkSize ∧
      min s.nextChunkEnd readChunkSize ≤ s.nextChunkEnd := by
    unfold readChunkSize
    omega
  have hlen : s.readChunk.chunk.length = min s.nextChunkEnd readChunkSize := by
    simp only [Scanner.readChunk, length_take, length_drop]
    omega
  refine ⟨⟨?_, h.line, h.dropped, h.collected⟩, ?_, ?_, ?_⟩
  · show s.nextChunkEnd - _ ≤ s.reader.length
    omega
  · unfold Scanner.unread
    rw [hchunk, append_nil]
    dsimp only [Scanner.readChunk]
    rw [← take_add, Nat.sub_add_cancel hsize.2]
  · unfold Scanner.left
    rw [hlen, hchunk]
    show s.nextChunkEnd - min s.nextChunkEnd readChunkSize + _ = _
    simp only [length_nil]
    omega
  · intro hnil
    rw [hnil, length_nil] at hlen
    omega

/-! ## One turn -/

section
variable {T E : Type} (fromSlice : List UInt8 → Except E T)

/-- What a turn may do to the records still to be visited: it keeps them and reads on, or
it returns the first of them. -/
def TurnOk (limit : Option ℕ) (left : ℕ)
    (records : List (List UInt8)) : Turn T E → Prop
  | .again s => ∃ tail, Reads s tail ∧ s.maxRecordBytes = limit ∧ s.left < left
      ∧ visited limit (s.unread ++ tail) = records
  | .done result s => result = records.head?.map (outcome fromSlice)
      ∧ ∃ tail, Reads s tail ∧ s.maxRecordBytes = limit
        ∧ visited limit (s.unread ++ tail) = records.tail

variable {s : Scanner}

/-- A record that is complete is returned if it is wanted. -/
theorem Reads.finishRecord {record : List UInt8} (h : Reads s record)
    (hdrop : s.discardingOversizedRecord = false) :
    s.finishRecord fromSlice
        = (if wanted s.maxRecordBytes record then some (outcome fromSlice record) else none,
          { s with recordReversed := [] })
      ∧ Reads { s with recordReversed := [] } [] := by
  have hfits : fits s.maxRecordBytes record = true := by simpa [hdrop] using h.dropped
  have hrecord : s.recordReversed.reverse = record := by simp [h.collected, hfits]
  refine ⟨?_, reads_nil h.within rfl hdrop⟩
  unfold Scanner.finishRecord wanted
  rw [hrecord, hfits]
  cases hblank : record.all isAsciiWhitespace <;> simp [hblank]

/-- A record that is complete is returned if it is wanted. -/
theorem Reads.endRecord {record : List UInt8} {left : ℕ} (h : Reads s record)
    (hleft : s.left < left) :
    TurnOk fromSlice s.maxRecordBytes left
      ((if wanted s.maxRecordBytes record then [record] else [])
        ++ visited s.maxRecordBytes s.unread)
      (s.endRecord fromSlice) := by
  unfold Scanner.endRecord
  cases hdrop : s.discardingOversizedRecord with
  | true =>
    have hfits : fits s.maxRecordBytes record = false := by simpa [hdrop] using h.dropped
    refine ⟨[], reads_nil h.within ?_ rfl, rfl, hleft, ?_⟩
    · simp [h.collected, hfits]
    · rw [append_nil]
      simp [wanted, hfits, Scanner.unread]
  | false =>
    obtain ⟨hresult, hreads⟩ := h.finishRecord fromSlice hdrop
    have hunread : Scanner.unread { s with recordReversed := [] } ++ [] = s.unread :=
      append_nil _
    rw [if_neg Bool.false_ne_true, hresult]
    by_cases hwanted : wanted s.maxRecordBytes record = true
    · simp only [if_pos hwanted]
      exact ⟨rfl, [], hreads, rfl, by rw [hunread]; rfl⟩
    · simp only [if_neg hwanted]
      exact ⟨[], hreads, rfl, hleft, by rw [hunread]; rfl⟩

variable {tail : List UInt8}

/-- One turn of the loop: the first record is returned, or more is read. -/
theorem Reads.readRecord (h : Reads s tail) (hchunk : s.chunk ≠ []) :
    TurnOk fromSlice s.maxRecordBytes s.left (visited s.maxRecordBytes (s.unread ++ tail))
      (s.readRecord fromSlice) := by
  unfold Scanner.readRecord
  cases hfind : memrchr newline s.chunk with
  | none =>
    obtain ⟨hreads, hunread, hleft, hmax⟩ := h.collect (memrchr_eq_none hfind) []
    refine ⟨_, hreads, hmax, ?_, ?_⟩
    · have hpos := length_pos_iff.mpr hchunk
      rw [hleft]
      unfold Scanner.left
      simp only [length_nil]
      omega
    · rw [hunread]
      simp [Scanner.unread]
  | some found =>
    obtain ⟨before, fragment⟩ := found
    obtain ⟨hsplit, hline⟩ := memrchr_eq_some hfind
    obtain ⟨hreads, hunread, hleft, hmax⟩ := h.collect hline before
    have htext : s.unread ++ tail
        = (s.reader.take s.nextChunkEnd ++ before) ++ newline :: (fragment ++ tail) := by
      unfold Scanner.unread
      rw [hsplit]
      simp
    have hless : s.nextChunkEnd + before.length < s.left := by
      unfold Scanner.left
      rw [hsplit]
      simp
    have hok := hreads.endRecord fromSlice (lt_of_eq_of_lt hleft hless)
    rw [hunread] at hok
    rw [htext, visited_concat hreads.line, ← hmax]
    exact hok

/-- **One turn.**  It keeps the records still to be visited and reads on, or it returns
the first of them and leaves the others. -/
theorem Reads.turn (h : Reads s tail) :
    TurnOk fromSlice s.maxRecordBytes s.left (visited s.maxRecordBytes (s.unread ++ tail))
      (s.turn fromSlice) := by
  unfold Scanner.turn
  by_cases hchunk : s.chunk = []
  · rw [if_pos hchunk]
    by_cases hend : s.nextChunkEnd = 0
    · -- the first record of the file has no newline before it
      have hunread : s.unread = [] := by simp [Scanner.unread, hchunk, hend]
      have hnil : visited s.maxRecordBytes ([] ++ []) = [] := by
        rw [append_nil, visited_line (by simp)]
        rfl
      rw [if_pos hend, hunread, nil_append, visited_line h.line]
      cases hdrop : s.discardingOversizedRecord with
      | true =>
        have hfits : fits s.maxRecordBytes tail = false := by simpa [hdrop] using h.dropped
        rw [if_pos rfl]
        refine ⟨by simp [wanted, hfits], [], reads_nil h.within ?_ rfl, rfl, ?_⟩
        · simp [h.collected, hfits]
        · show visited _ (s.unread ++ []) = _
          rw [hunread, hnil]
          simp [wanted, hfits]
      | false =>
        obtain ⟨hresult, hreads⟩ := h.finishRecord fromSlice hdrop
        rw [if_neg Bool.false_ne_true, hresult]
        refine ⟨?_, [], hreads, rfl, ?_⟩
        · split_ifs <;> rfl
        · show visited _ (s.unread ++ []) = _
          rw [hunread, hnil]
          split_ifs <;> rfl
    · obtain ⟨hreads, hunread, hleft, hne⟩ := h.readChunk hchunk hend
      have hok := hreads.readRecord fromSlice hne
      rw [hunread, hleft] at hok
      rw [if_neg hend]
      exact hok
  · rw [if_neg hchunk]
    exact h.readRecord fromSlice hchunk

/-! ## Calls -/

/-- One call returns the first record still to be visited and leaves the others. -/
theorem Reads.loop {fuel : ℕ} (h : Reads s tail) (hfuel : s.left < fuel) :
    ∃ s' tail', Scanner.loop fromSlice fuel s
        = some ((visited s.maxRecordBytes (s.unread ++ tail)).head?.map (outcome fromSlice), s')
      ∧ Reads s' tail' ∧ s'.maxRecordBytes = s.maxRecordBytes
      ∧ visited s.maxRecordBytes (s'.unread ++ tail')
        = (visited s.maxRecordBytes (s.unread ++ tail)).tail := by
  induction fuel generalizing s tail with
  | zero => omega
  | succ fuel ih =>
    have hturn := h.turn fromSlice
    unfold Scanner.loop
    cases hresult : s.turn fromSlice with
    | again s₁ =>
      rw [hresult] at hturn
      obtain ⟨tail₁, hreads, hmax, hleft, hrecords⟩ := hturn
      obtain ⟨s', tail', hloop, hreads', hmax', hrest⟩ := ih hreads (by omega)
      rw [hmax, hrecords] at hloop hrest
      exact ⟨s', tail', hloop, hreads', hmax'.trans hmax, hrest⟩
    | done result s₁ =>
      rw [hresult] at hturn
      obtain ⟨rfl, tail₁, hreads, hmax, hrest⟩ := hturn
      exact ⟨s₁, tail₁, rfl, hreads, hmax, hrest⟩

/-- **All calls.**  The `k`-th call returns the `k`-th record still to be visited. -/
theorem Reads.calls (h : Reads s tail) (n : ℕ) :
    Scanner.calls fromSlice n s
      = some ((List.range n).map fun k =>
          (visited s.maxRecordBytes (s.unread ++ tail))[k]?.map (outcome fromSlice)) := by
  induction n generalizing s tail with
  | zero => rfl
  | succ n ih =>
    obtain ⟨s', tail', hloop, hreads, hmax, hrest⟩ :=
      h.loop fromSlice (Nat.lt_succ_self s.left)
    have hnext := ih hreads
    rw [hmax, hrest] at hnext
    unfold Scanner.calls Scanner.scanNext
    rw [hloop, range_succ_eq_map, map_cons, map_map]
    show (do let results ← Scanner.calls fromSlice n s'; return _ :: results) = _
    rw [hnext]
    refine congrArg some (congrArg₂ List.cons ?_ (map_congr_left fun k _ => ?_))
    · rw [head?_eq_getElem?]
    · simp [getElem?_tail]

/-- **The scanner.**  For every file, end offset and limit, a scanner at an offset past
the file is refused.  Otherwise any number of calls succeed, and the `k`-th of them
returns the `k`-th of the non-blank records within the limit of the text before the
offset, counted from the last one, and nothing once all of them were returned. -/
theorem calls_newAt (reader : List UInt8) (endByteOffset : ℕ) (limit : Option ℕ) (n : ℕ) :
    if reader.length < endByteOffset then
      Scanner.newAt reader endByteOffset = .error "reverse JSONL scan end is past the file"
    else
      ∃ s, Scanner.newAt reader endByteOffset = .ok s
        ∧ (s.withMaxRecordBytes limit).calls fromSlice n
          = some ((List.range n).map fun k =>
              (((reader.take endByteOffset).splitOn newline).reverse.filter
                (wanted limit))[k]?.map (outcome fromSlice)) := by
  unfold Scanner.newAt
  split_ifs with hend
  · rfl
  · refine ⟨_, rfl, ?_⟩
    have hreads : Reads (Scanner.withMaxRecordBytes ⟨reader, endByteOffset, [], [], none, false⟩
        limit) [] := reads_nil (not_lt.mp hend) rfl rfl
    rw [hreads.calls fromSlice n]
    simp [visited, Scanner.unread, Scanner.withMaxRecordBytes]

end

end ReverseJsonl
