/-
# The lines of a chunk

A chunk of an update hunk is written as a list of context, removed and added lines.
The parser keeps the two sides of it, `oldLines` and `newLines`, and the places of
the context lines in both; the order of removed and added lines between two context
lines is not kept.  `chunkLines` recovers a list of lines, the removed ones of each
stretch before the added ones.
-/
import BetterCodex.PatchRuns

open RustStr List

namespace ApplyPatch

open UpdateFileChunk

/-! ## Chunk lines -/

/-- A line of a chunk: kept, deleted or inserted. -/
inductive ChunkLine where
  | context (line : Text)
  | removed (line : Text)
  | added (line : Text)
  deriving DecidableEq, Repr

/-- The body line that a chunk line is read as. -/
def ChunkLine.toBody : ChunkLine → BodyLine
  | .context line => .context line
  | .removed line => .removed line
  | .added line => .added line

variable (c : UpdateFileChunk)

/-- One more line of a chunk. -/
def UpdateFileChunk.pushLine : ChunkLine → UpdateFileChunk
  | .context line => c.pushContextLine line
  | .removed line => c.pushOldLine line
  | .added line => c.pushNewLine line

/-- The lines that must be in the file. -/
def oldSide (ls : List ChunkLine) : List Text :=
  ls.filterMap (fun
    | .context line => some line
    | .removed line => some line
    | .added _ => none)

/-- The lines that are in the file afterwards. -/
def newSide (ls : List ChunkLine) : List Text :=
  ls.filterMap (fun
    | .context line => some line
    | .removed _ => none
    | .added line => some line)

/-- The elements of a list from index `a` up to index `b`. -/
def slice (l : List Text) (a b : ℕ) : List Text := (l.take b).drop a

/-- Interleave two sides from the places `o` and `n` on: up to the next context line
the removed lines and then the added ones. -/
def interleave (old new : List Text) : ℕ → ℕ → List (ℕ × ℕ) → List ChunkLine
  | o, n, [] => (old.drop o).map .removed ++ (new.drop n).map .added
  | o, n, (i, j) :: contexts =>
    (slice old o i).map .removed ++ (slice new n j).map .added
      ++ .context (old.getD i []) :: interleave old new (i + 1) (j + 1) contexts

/-- The lines of a chunk. -/
def chunkLines : List ChunkLine :=
  interleave c.oldLines c.newLines 0 0 c.contextLineIndices

/-- The context places from `o` and `n` on ascend on both sides, stay in range, and
pair equal lines. -/
def ContextsMatch (old new : List Text) : ℕ → ℕ → List (ℕ × ℕ) → Prop
  | o, n, [] => o ≤ old.length ∧ n ≤ new.length
  | o, n, (i, j) :: contexts =>
    o ≤ i ∧ n ≤ j ∧ (∃ line, old[i]? = some line ∧ new[j]? = some line)
      ∧ ContextsMatch old new (i + 1) (j + 1) contexts

/-- The context places of a chunk are consistent. -/
def UpdateFileChunk.Consistent : Prop :=
  ContextsMatch c.oldLines c.newLines 0 0 c.contextLineIndices

/-! ## Rebuilding a chunk from its lines -/

theorem foldl_pushLine_removed (ls : List Text) :
    (ls.map ChunkLine.removed).foldl pushLine c
      = { c with oldLines := c.oldLines ++ ls } := by
  induction ls generalizing c with
  | nil => simp
  | cons l ls ih =>
    rw [map_cons, foldl_cons, ih]
    simp [pushLine, pushOldLine]

theorem foldl_pushLine_added (ls : List Text) :
    (ls.map ChunkLine.added).foldl pushLine c
      = { c with newLines := c.newLines ++ ls } := by
  induction ls generalizing c with
  | nil => simp
  | cons l ls ih =>
    rw [map_cons, foldl_cons, ih]
    simp [pushLine, pushNewLine]

theorem take_append_slice {l : List Text} {a b : ℕ} (h : a ≤ b) :
    l.take a ++ slice l a b = l.take b := by
  unfold slice
  have htake : l.take a = (l.take b).take a := by rw [take_take, Nat.min_eq_left h]
  rw [htake, take_append_drop]

variable {old new : List Text} {o n : ℕ} {contexts : List (ℕ × ℕ)} {c : UpdateFileChunk}

/-- Pushing the interleaved lines from `o` and `n` on completes the two sides. -/
theorem foldl_pushLine_interleave (h : ContextsMatch old new o n contexts)
    (hold : c.oldLines = old.take o) (hnew : c.newLines = new.take n) :
    (interleave old new o n contexts).foldl pushLine c
      = { c with oldLines := old, newLines := new
                 contextLineIndices := c.contextLineIndices ++ contexts } := by
  induction contexts generalizing o n c with
  | nil =>
    unfold interleave
    rw [foldl_append, foldl_pushLine_removed, foldl_pushLine_added, hold, hnew]
    simp
  | cons p contexts ih =>
    obtain ⟨i, j⟩ := p
    obtain ⟨hoi, hnj, ⟨line, hi, hj⟩, hrest⟩ := h
    have hi' : i < old.length := (List.getElem?_eq_some_iff.mp hi).1
    have hj' : j < new.length := (List.getElem?_eq_some_iff.mp hj).1
    unfold interleave
    rw [foldl_append, foldl_append, foldl_pushLine_removed, foldl_pushLine_added,
      foldl_cons, hold, hnew, take_append_slice hoi, take_append_slice hnj,
      getD_eq_getElem?_getD, hi, Option.getD_some]
    rw [ih hrest]
    · simp [pushLine, pushContextLine, Nat.min_eq_left hi'.le, Nat.min_eq_left hj'.le]
    · simp [pushLine, pushContextLine, take_add_one, hi]
    · simp [pushLine, pushContextLine, take_add_one, hj]

/-- **Chunk lines.**  A consistent chunk is built again from its lines. -/
theorem foldl_pushLine_chunkLines (h : c.Consistent) (changeContext : Option Text) :
    (chunkLines c).foldl pushLine { changeContext := changeContext }
      = { c with changeContext := changeContext, isEndOfFile := false } := by
  unfold chunkLines
  rw [foldl_pushLine_interleave h (by simp) (by simp)]
  simp

/-! ## The sides of chunk lines -/

theorem oldLines_foldl_pushLine (c : UpdateFileChunk) (ls : List ChunkLine) :
    (ls.foldl pushLine c).oldLines = c.oldLines ++ oldSide ls := by
  induction ls generalizing c with
  | nil => simp [oldSide]
  | cons l ls ih =>
    rw [foldl_cons, ih]
    cases l <;> simp [pushLine, pushContextLine,
      pushOldLine, pushNewLine, oldSide]

theorem newLines_foldl_pushLine (c : UpdateFileChunk) (ls : List ChunkLine) :
    (ls.foldl pushLine c).newLines = c.newLines ++ newSide ls := by
  induction ls generalizing c with
  | nil => simp [newSide]
  | cons l ls ih =>
    rw [foldl_cons, ih]
    cases l <;> simp [pushLine, pushContextLine,
      pushOldLine, pushNewLine, newSide]

theorem oldSide_chunkLines (h : c.Consistent) : oldSide (chunkLines c) = c.oldLines := by
  have hold := oldLines_foldl_pushLine { changeContext := none } (chunkLines c)
  rw [foldl_pushLine_chunkLines h, nil_append] at hold
  exact hold.symm

theorem newSide_chunkLines (h : c.Consistent) : newSide (chunkLines c) = c.newLines := by
  have hnew := newLines_foldl_pushLine { changeContext := none } (chunkLines c)
  rw [foldl_pushLine_chunkLines h, nil_append] at hnew
  exact hnew.symm

/-! ## One more line -/

theorem slice_append_left {l : List Text} {a b : ℕ} (h : b ≤ l.length) (l' : List Text) :
    slice (l ++ l') a b = slice l a b := by
  unfold slice
  rw [take_append_of_le_length h]

/-- A context line at the end of both sides. -/
theorem interleave_context (h : ContextsMatch old new o n contexts) (line : Text) :
    interleave (old ++ [line]) (new ++ [line]) o n (contexts ++ [(old.length, new.length)])
      = interleave old new o n contexts ++ [.context line] := by
  induction contexts generalizing o n with
  | nil => simp [interleave, slice]
  | cons p contexts ih =>
    obtain ⟨i, j⟩ := p
    obtain ⟨-, -, ⟨l, hi, hj⟩, hrest⟩ := h
    have hi' : i < old.length := (List.getElem?_eq_some_iff.mp hi).1
    have hj' : j < new.length := (List.getElem?_eq_some_iff.mp hj).1
    rw [cons_append, interleave, interleave, ih hrest, slice_append_left hi'.le,
      slice_append_left hj'.le, getD_append _ _ _ _ hi']
    simp

theorem interleave_added (h : ContextsMatch old new o n contexts) (line : Text) :
    interleave old (new ++ [line]) o n contexts
      = interleave old new o n contexts ++ [.added line] := by
  induction contexts generalizing o n with
  | nil => simp [interleave, drop_append_of_le_length h.2]
  | cons p contexts ih =>
    obtain ⟨i, j⟩ := p
    obtain ⟨-, -, ⟨l, -, hj⟩, hrest⟩ := h
    have hj' : j < new.length := (List.getElem?_eq_some_iff.mp hj).1
    rw [interleave, interleave, ih hrest, slice_append_left hj'.le]
    simp

/-- A removed line comes last only when no added lines stand behind it. -/
theorem interleave_removed (h : ContextsMatch old new o n contexts) {line : Text}
    (hlast : (interleave (old ++ [line]) new o n contexts).getLast? = some (.removed line)) :
    interleave (old ++ [line]) new o n contexts
      = interleave old new o n contexts ++ [.removed line] := by
  induction contexts generalizing o n with
  | nil =>
    have hdrop : new.drop n = [] := by
      rcases eq_nil_or_concat' (new.drop n) with hnil | ⟨u, d, hd⟩
      · exact hnil
      · rw [interleave, hd] at hlast
        simp at hlast
    simp [interleave, hdrop, drop_append_of_le_length h.1]
  | cons p contexts ih =>
    obtain ⟨i, j⟩ := p
    obtain ⟨-, -, ⟨l, hi, -⟩, hrest⟩ := h
    have hi' : i < old.length := (List.getElem?_eq_some_iff.mp hi).1
    rw [interleave] at hlast
    have hlast' : (interleave (old ++ [line]) new (i + 1) (j + 1) contexts).getLast?
        = some (.removed line) := by
      rcases eq_nil_or_concat' (interleave (old ++ [line]) new (i + 1) (j + 1) contexts)
        with hnil | ⟨u, d, hd⟩
      · rw [hnil] at hlast
        simp at hlast
      · rw [hd] at hlast ⊢
        simpa [getLast?_append, getLast?_cons] using hlast
    rw [interleave, interleave, ih hrest hlast', slice_append_left hi'.le, getD_append _ _ _ _ hi']
    simp

/-! ## The parser builds consistent chunks -/

theorem ContextsMatch.append (h : ContextsMatch old new o n contexts) (old' new' : List Text) :
    ContextsMatch (old ++ old') (new ++ new') o n contexts := by
  induction contexts generalizing o n with
  | nil =>
    obtain ⟨ho, hn⟩ := h
    exact ⟨by simp; omega, by simp; omega⟩
  | cons p contexts ih =>
    obtain ⟨ho, hn, ⟨line, hi, hj⟩, hrest⟩ := h
    refine ⟨ho, hn, ⟨line, ?_, ?_⟩, ih hrest⟩
    · rw [List.getElem?_append_left (List.getElem?_eq_some_iff.mp hi).1, hi]
    · rw [List.getElem?_append_left (List.getElem?_eq_some_iff.mp hj).1, hj]

theorem ContextsMatch.concat (h : ContextsMatch old new o n contexts) (line : Text) :
    ContextsMatch (old ++ [line]) (new ++ [line]) o n (contexts ++ [(old.length, new.length)]) := by
  induction contexts generalizing o n with
  | nil =>
    obtain ⟨ho, hn⟩ := h
    exact ⟨ho, hn, ⟨line, by simp, by simp⟩, by simp, by simp⟩
  | cons p contexts ih =>
    obtain ⟨ho, hn, ⟨l, hi, hj⟩, hrest⟩ := h
    refine ⟨ho, hn, ⟨l, ?_, ?_⟩, ih hrest⟩
    · rw [List.getElem?_append_left (List.getElem?_eq_some_iff.mp hi).1, hi]
    · rw [List.getElem?_append_left (List.getElem?_eq_some_iff.mp hj).1, hj]

theorem UpdateFileChunk.consistent_empty (changeContext : Option Text) :
    UpdateFileChunk.Consistent { changeContext := changeContext } := ⟨le_rfl, le_rfl⟩

theorem UpdateFileChunk.Consistent.pushLine (h : c.Consistent) (line : ChunkLine) :
    (c.pushLine line).Consistent := by
  cases line with
  | context line => exact ContextsMatch.concat h line
  | removed line =>
    have hext := ContextsMatch.append h [line] []
    rw [append_nil] at hext
    exact hext
  | added line =>
    have hext := ContextsMatch.append h [] [line]
    rw [append_nil] at hext
    exact hext

theorem UpdateFileChunk.Consistent.foldl_pushLine (h : c.Consistent) (ls : List ChunkLine) :
    (ls.foldl UpdateFileChunk.pushLine c).Consistent := by
  induction ls generalizing c with
  | nil => exact h
  | cons l ls ih => exact ih (h.pushLine l)

/-- **The last line.**  A chunk is the chunk of its lines but the last, with that one
pushed. -/
theorem chunkLines_eq_concat (hc : c.Consistent) {ls : List ChunkLine} {x : ChunkLine}
    (h : chunkLines c = ls ++ [x]) :
    ∃ d : UpdateFileChunk, d.Consistent ∧ chunkLines d = ls
      ∧ (d.pushLine x).oldLines = c.oldLines ∧ (d.pushLine x).newLines = c.newLines
      ∧ (d.pushLine x).contextLineIndices = c.contextLineIndices := by
  have hbuild := foldl_pushLine_chunkLines hc none
  rw [h, foldl_append, foldl_cons, foldl_nil] at hbuild
  have hd := (UpdateFileChunk.consistent_empty none).foldl_pushLine ls
  generalize ls.foldl UpdateFileChunk.pushLine { changeContext := none } = d at hbuild hd
  refine ⟨d, hd, ?_, by rw [hbuild], by rw [hbuild], by rw [hbuild]⟩
  have hlines : chunkLines (d.pushLine x) = ls ++ [x] := by
    rw [hbuild]
    exact h
  cases x with
  | context line =>
    have hpush : chunkLines (d.pushLine (.context line)) = chunkLines d ++ [.context line] :=
      interleave_context hd line
    exact append_cancel_right (hpush.symm.trans hlines)
  | added line =>
    have hpush : chunkLines (d.pushLine (.added line)) = chunkLines d ++ [.added line] :=
      interleave_added hd line
    exact append_cancel_right (hpush.symm.trans hlines)
  | removed line =>
    have hpush : chunkLines (d.pushLine (.removed line)) = chunkLines d ++ [.removed line] := by
      refine interleave_removed hd ?_
      have hlast := congrArg List.getLast? hlines
      rw [getLast?_concat] at hlast
      exact hlast
    exact append_cancel_right (hpush.symm.trans hlines)

theorem UpdateFileChunk.Consistent.pushAdded (h : c.Consistent) (added : List Text) :
    UpdateFileChunk.Consistent { c with newLines := c.newLines ++ added } := by
  have hext := ContextsMatch.append h [] added
  rw [append_nil] at hext
  exact hext

/-- Added lines at the end of a chunk, pushed and taken off again. -/
theorem chunkLines_pushAdded (hc : c.Consistent) (added : List Text) :
    chunkLines { c with newLines := c.newLines ++ added } = chunkLines c ++ added.map .added := by
  induction added generalizing c with
  | nil => simp
  | cons l added ih =>
    have hpush : chunkLines (c.pushLine (.added l)) = chunkLines c ++ [.added l] :=
      interleave_added hc l
    have hrest := ih (hc.pushLine (.added l))
    rw [hpush] at hrest
    simpa [pushLine, pushNewLine] using hrest

/-- The added lines at the end of a chunk can be cut off. -/
theorem chunkLines_eq_append_added (hc : c.Consistent) {ls : List ChunkLine} {added : List Text}
    (h : chunkLines c = ls ++ added.map .added) :
    ∃ d : UpdateFileChunk, d.Consistent ∧ chunkLines d = ls ∧ d.oldLines = c.oldLines
      ∧ d.newLines ++ added = c.newLines ∧ d.contextLineIndices = c.contextLineIndices := by
  induction added using List.reverseRecOn generalizing c with
  | nil =>
    rw [map_nil, append_nil] at h
    exact ⟨c, hc, h, rfl, append_nil _, rfl⟩
  | append_singleton added l ih =>
    rw [map_append, map_singleton, ← append_assoc] at h
    obtain ⟨e, he, hlines, hold, hnew, hctx⟩ := chunkLines_eq_concat hc h
    obtain ⟨d, hd, hls, hold', hnew', hctx'⟩ := ih he hlines
    refine ⟨d, hd, hls, hold'.trans hold, ?_, hctx'.trans hctx⟩
    rw [← append_assoc, hnew']
    exact hnew

theorem consistent_onLastChunk {chunks : List UpdateFileChunk}
    (h : ∀ c ∈ chunks, c.Consistent) (line : ChunkLine) :
    ∀ c ∈ onLastChunk (·.pushLine line) chunks, c.Consistent := by
  intro c hc
  rw [onLastChunk_eq_concat, mem_append, mem_singleton] at hc
  rcases hc with hc | rfl
  · exact h c (mem_of_mem_dropLast hc)
  · refine UpdateFileChunk.Consistent.pushLine ?_ line
    cases hl : chunks.getLast? with
    | none => exact consistent_empty none
    | some last => exact h last (mem_of_getLast? hl)

/-- A line of an update keeps its chunks consistent. -/
theorem BodyLine.consistent_perform {movePath : Option Text} {chunks : List UpdateFileChunk}
    (h : ∀ c ∈ chunks, c.Consistent) (b : BodyLine) :
    ∀ c ∈ (b.perform movePath chunks).2, c.Consistent := by
  cases b with
  | skip => exact h
  | moveTo path => exact h
  | openChunk changeContext =>
    intro c hc
    rcases mem_append.mp hc with hc | hc
    · exact h c hc
    · rw [mem_singleton.mp hc]
      exact consistent_empty changeContext
  | endOfFile =>
    intro c hc
    simp only [BodyLine.perform, markEndOfFile] at hc
    cases hl : chunks.getLast? with
    | none => rw [hl] at hc; exact h c hc
    | some last =>
      rw [hl] at hc
      rcases mem_append.mp hc with hc | hc
      · exact h c (mem_of_mem_dropLast hc)
      · rw [mem_singleton.mp hc]
        exact h last (mem_of_getLast? hl)
  | context line => exact consistent_onLastChunk h (.context line)
  | added line => exact consistent_onLastChunk h (.added line)
  | removed line => exact consistent_onLastChunk h (.removed line)

/-- Every chunk of every update hunk is consistent. -/
def ConsistentHunks (hunks : List Hunk) : Prop :=
  ∀ path movePath chunks, Hunk.updateFile path movePath chunks ∈ hunks →
    ∀ c ∈ chunks, c.Consistent

theorem ConsistentHunks.dropLast {hunks : List Hunk} (h : ConsistentHunks hunks) :
    ConsistentHunks hunks.dropLast :=
  fun path movePath chunks hmem => h path movePath chunks (mem_of_mem_dropLast hmem)

theorem ConsistentHunks.concat {hunks : List Hunk} (h : ConsistentHunks hunks) {hunk : Hunk}
    (hhunk : ∀ path movePath chunks, hunk = .updateFile path movePath chunks →
      ∀ c ∈ chunks, c.Consistent) : ConsistentHunks (hunks ++ [hunk]) := by
  intro path movePath chunks hmem
  rcases mem_append.mp hmem with hmem | hmem
  · exact h path movePath chunks hmem
  · exact hhunk path movePath chunks (mem_singleton.mp hmem).symm

/-- One event keeps the chunks of the hunks consistent. -/
theorem consistentHunks_perform {p : StreamingPatchParser} {e : LineEvent} (hp : Inv p)
    (he : (phaseOf p).Allows e) (h : ConsistentHunks p.state.hunks) :
    ConsistentHunks (p.perform e).state.hunks := by
  cases e with
  | begin => exact h
  | environment environmentId => exact h
  | blank => exact h
  | header hd =>
    cases hd with
    | endPatch => exact h
    | addFile path => exact h.concat (by rintro _ _ _ ⟨⟩)
    | deleteFile path => exact h.concat (by rintro _ _ _ ⟨⟩)
    | updateFile path =>
      refine h.concat ?_
      rintro _ _ chunks ⟨⟩ c hc
      cases hc
  | fileLine line =>
    obtain ⟨path, contents, hlast⟩ := StreamingPatchParser.getLast_of_allows_fileLine hp he
    simp only [StreamingPatchParser.perform, hlast]
    exact h.dropLast.concat (by rintro _ _ _ ⟨⟩)
  | body b =>
    obtain ⟨path, movePath, chunks, hlast, -, -⟩ :=
      StreamingPatchParser.getLast_of_allows_body hp he
    simp only [StreamingPatchParser.perform, hlast]
    refine h.dropLast.concat ?_
    rintro _ _ _ ⟨⟩
    exact BodyLine.consistent_perform (h path movePath chunks (mem_of_getLast? hlast)) b

/-- **Parsed chunks are consistent.** -/
theorem consistentHunks_of_parsePatch {text : Text} {args : ApplyPatchArgs}
    (h : parsePatch text = .ok args) : ConsistentHunks args.hunks := by
  obtain ⟨body, last, es, hes, hhunks, -⟩ := parsePatch_eq_ok h
  rw [hhunks]
  refine performPatch_induction ?_ (fun p e => consistentHunks_perform) (readPatch_eq_some.mp hes).2.1
  intro path movePath chunks hmem
  cases hmem

end ApplyPatch
