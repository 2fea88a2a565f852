/-
# What an update does to a file

The purpose of an update, without searches and replacement lists: each chunk has a
place in the file (`Placement`), its removed lines delete the lines they stand at, its
added lines go in where their change starts, and every other line stays as it is
(`editedLines`).

`deriveNewContents_edits` connects this with the code: for the chunks of every parsed
patch, a successful update is such an edit, the chunks placed one behind the other
(`Placed`) and at lines that match their old side.  When the old lines of a chunk are
not in the file, the code drops an empty last line, which stands for the final newline;
the edit is then the one of the chunk without it (`WithoutSentinel`).

`computeReplacements_inRange` says that the replacements themselves are safe to apply, and
`seekSequence_documented_iff` where the search does what its comment promises.
-/
import BetterCodex.FileUpdate

open RustStr Splice List

namespace ApplyPatch

open UpdateFileChunk SourceLine Replacement

/-! ## Edits -/

/-- Chunk lines at a place in the file. -/
structure Placement where
  start : ℕ
  lines : List ChunkLine
  deriving DecidableEq, Repr

/-- The file lines that the removed lines stand at, from line `pos` on. -/
def deletedAt : ℕ → List ChunkLine → List ℕ
  | _, [] => []
  | pos, .context _ :: ls => deletedAt (pos + 1) ls
  | pos, .removed _ :: ls => pos :: deletedAt (pos + 1) ls
  | pos, .added _ :: ls => deletedAt pos ls

/-- The added lines with the file line they go in before: where the change they belong
to starts, in place of its removed lines. -/
def insertedAt : ℕ → ℕ → List ChunkLine → List (ℕ × Text)
  | _, _, [] => []
  | _, pos, .context _ :: ls => insertedAt (pos + 1) (pos + 1) ls
  | change, pos, .removed _ :: ls => insertedAt change (pos + 1) ls
  | change, pos, .added line :: ls => (change, line) :: insertedAt change pos ls

/-- Some chunk removes file line `i`. -/
def deletedBy (ps : List Placement) (i : ℕ) : Bool :=
  ps.any (fun p => decide (i ∈ deletedAt p.start p.lines))

/-- The lines that the chunks add before file line `g`, in the order of the chunks. -/
def insertedBy (ps : List Placement) (g : ℕ) : List Text :=
  ((ps.flatMap (fun p => insertedAt p.start p.start p.lines)).filter (·.1 = g)).map (·.2)

/-- The lines of a file after an edit: added lines carry the preferred ending, kept lines
their own, and a line without ending gets one. -/
def editedLines (file : SourceFile) (ps : List Placement) : List SourceLine :=
  (weave (deletedBy ps)
    (fun g => (insertedBy ps g).map (.inserted file.preferredEnding)) 0 file.lines).map (terminate file.preferredEnding)

/-! ## Places -/

/-- The file has the lines at `i`, up to one of the passes of the search. -/
def StandsAt (fileLines ls : List Text) (i : ℕ) : Prop :=
  i + ls.length ≤ fileLines.length ∧ ∃ pass ∈ matchPasses, matchesAt pass fileLines ls i = true

/-- The lines of a chunk without the empty last line of its old side, where that line
stands for the final newline: as a context line at the very end, or as a removed line,
together with an empty last added line if there is one. -/
inductive WithoutSentinel : List ChunkLine → List ChunkLine → Prop where
  | context (ls : List ChunkLine) : WithoutSentinel (ls ++ [.context []]) ls
  | removed (ls : List ChunkLine) (added : List Text)
      (h : (newSide (ls ++ added.map .added)).getLast? ≠ some []) :
      WithoutSentinel (ls ++ .removed [] :: added.map .added) (ls ++ added.map .added)
  | both (ls : List ChunkLine) (added : List Text) :
      WithoutSentinel (ls ++ .removed [] :: added.map .added ++ [.added []])
        (ls ++ added.map .added)

/-- The search for a chunk starts at `lineIndex`, or behind its change context. -/
def SearchesFrom (fileLines : List Text) (lineIndex : ℕ) (c : UpdateFileChunk) (i : ℕ) : Prop :=
  match c.changeContext with
  | none => i = lineIndex
  | some contextLine => ∃ j, lineIndex ≤ j ∧ StandsAt fileLines [contextLine] j ∧ i = j + 1

/-- A chunk with old lines is placed where its old side stands: with all its lines, or,
when they are not found and end in an empty old line, without that line. -/
def PlacedFrom (fileLines : List Text) (searchStart : ℕ) (c : UpdateFileChunk) (p : Placement) :
    Prop :=
  searchStart ≤ p.start ∧ StandsAt fileLines (oldSide p.lines) p.start
    ∧ (p.lines = chunkLines c
      ∨ seekSequence fileLines c.oldLines searchStart c.isEndOfFile = none
        ∧ c.oldLines.getLast? = some [] ∧ oldSide p.lines = c.oldLines.dropLast
        ∧ ∀ ls, WithoutSentinel (chunkLines c) ls → p.lines = ls)

/-- The chunks are placed one behind the other; a chunk without old lines adds its lines
at the end of the file. -/
def Placed (fileLines : List Text) : ℕ → List UpdateFileChunk → List Placement → Prop
  | _, [], [] => True
  | lineIndex, c :: cs, p :: ps =>
    ∃ searchStart, SearchesFrom fileLines lineIndex c searchStart
      ∧ if c.oldLines = [] then
          p = ⟨fileLines.length, chunkLines c⟩ ∧ Placed fileLines searchStart cs ps
        else
          PlacedFrom fileLines searchStart c p
            ∧ Placed fileLines (p.start + (oldSide p.lines).length) cs ps
  | _, _, _ => False

/-! ## The search -/

variable {fileLines pattern : List Text} {start i : ℕ}

/-- What is found matches, at or behind the start. -/
theorem seekSequence_eq_some {eof : Bool} (h : seekSequence fileLines pattern start eof = some i)
    (hstart : start ≤ fileLines.length) : start ≤ i ∧ StandsAt fileLines pattern i := by
  unfold seekSequence at h
  split_ifs at h with hnil hlen
  · obtain rfl := Option.some.inj h
    refine ⟨le_rfl, by simpa [hnil] using hstart, id, by simp [matchPasses], ?_⟩
    simp [matchesAt, hnil]
  · obtain ⟨pass, hpass, hfind⟩ := exists_of_findSome?_eq_some h
    have hmem := mem_of_find?_eq_some hfind
    rw [mem_range'_1] at hmem
    have hfirst : start ≤ searchStart fileLines pattern start eof := by
      unfold searchStart
      split_ifs <;> omega
    exact ⟨by omega, by omega, pass, hpass, find?_some hfind⟩

/-! ## Replacements of one chunk -/

/-- The lines that a stretch of removed and added lines deletes. -/
theorem mem_deletedAt_stretch (i pos : ℕ) (removed added : List Text) (rest : List ChunkLine) :
    i ∈ deletedAt pos (removed.map .removed ++ added.map .added ++ rest)
      ↔ (pos ≤ i ∧ i < pos + removed.length) ∨ i ∈ deletedAt (pos + removed.length) rest := by
  induction removed generalizing pos with
  | nil =>
    have hadded : deletedAt pos (added.map .added ++ rest) = deletedAt pos rest := by
      induction added with
      | nil => rfl
      | cons l added ih => exact ih
    rw [map_nil, nil_append, hadded]
    simp
  | cons l removed ih =>
    rw [map_cons, cons_append, cons_append, deletedAt, mem_cons, ih,
      length_cons, show pos + 1 + removed.length = pos + (removed.length + 1) by omega]
    constructor
    · rintro (h | h | h)
      · exact .inl (by omega)
      · exact .inl (by omega)
      · exact .inr h
    · rintro (h | h)
      · by_cases hi : i = pos
        · exact .inl hi
        · exact .inr (.inl (by omega))
      · exact .inr (.inr h)

/-- The lines that a stretch inserts, all where its change starts. -/
theorem insertedAt_stretch (change pos : ℕ) (removed added : List Text) (rest : List ChunkLine) :
    insertedAt change pos (removed.map .removed ++ added.map .added ++ rest)
      = added.map (fun line => (change, line))
        ++ insertedAt change (pos + removed.length) rest := by
  induction removed generalizing pos with
  | nil =>
    rw [map_nil, nil_append]
    induction added with
    | nil => rfl
    | cons l added ih => exact congrArg ((change, l) :: ·) ih
  | cons l removed ih =>
    rw [map_cons, cons_append, cons_append, insertedAt, ih, length_cons,
      show pos + 1 + removed.length = pos + (removed.length + 1) by omega]

theorem filter_map_pair (change g : ℕ) (added : List Text) :
    ((added.map (fun line => (change, line))).filter (·.1 = g)).map (·.2)
      = if change = g then added else [] := by
  by_cases h : change = g
  · subst h
    rw [if_pos rfl, filter_eq_self.mpr (by simp)]
    simp
  · rw [if_neg h, filter_eq_nil_iff.mpr (by simp [h])]
    rfl

/-- The added lines that go in before file line `g`. -/
def insertionsAt (g : ℕ) (change pos : ℕ) (ls : List ChunkLine) : List Text :=
  ((insertedAt change pos ls).filter (·.1 = g)).map (·.2)

theorem insertionsAt_stretch (g change pos : ℕ) (removed added : List Text)
    (rest : List ChunkLine) :
    insertionsAt g change pos (removed.map .removed ++ added.map .added ++ rest)
      = (if change = g then added else [])
        ++ insertionsAt g change (pos + removed.length) rest := by
  unfold insertionsAt
  rw [insertedAt_stretch, filter_append, map_append, filter_map_pair]

theorem length_slice {l : List Text} {a b : ℕ} (h : b ≤ l.length) :
    (slice l a b).length = b - a := by
  unfold slice
  rw [length_drop, length_take, Nat.min_eq_left h]

/-- What the replacements of a located chunk do, in terms of its lines. -/
structure StretchSpec (pattern newSlice : List Text) (startIdx o n : ℕ)
    (contexts : List (ℕ × ℕ)) : Prop where
  deletes_eq : ∀ i, deletes (stretchReplacements pattern newSlice startIdx o n contexts) i
    = decide (i ∈ deletedAt (startIdx + o) (interleave pattern newSlice o n contexts))
  inserts_eq : ∀ g, inserts (stretchReplacements pattern newSlice startIdx o n contexts) g
    = insertionsAt g (startIdx + o) (startIdx + o) (interleave pattern newSlice o n contexts)
  ordered : (stretchReplacements pattern newSlice startIdx o n contexts).Pairwise
    (fun r r' => r.stop ≤ r'.start)
  bounds : ∀ r ∈ stretchReplacements pattern newSlice startIdx o n contexts,
    startIdx + o ≤ r.start ∧ r.stop ≤ startIdx + pattern.length

variable {newSlice : List Text} {o n : ℕ} {contexts : List (ℕ × ℕ)}

/-- **The context loop** replaces each stretch between context lines by its added lines. -/
theorem stretchReplacements_spec (h : ContextsMatch pattern newSlice o n contexts) (startIdx : ℕ) :
    StretchSpec pattern newSlice startIdx o n contexts := by
  induction contexts generalizing o n with
  | nil =>
    obtain ⟨ho, hn⟩ := h
    have hrs : stretchReplacements pattern newSlice startIdx o n []
        = if o ≠ pattern.length ∨ n ≠ newSlice.length then
            [⟨startIdx + o, pattern.length - o, newSlice.drop n⟩]
          else [] := rfl
    have hlines : interleave pattern newSlice o n []
        = (pattern.drop o).map .removed ++ (newSlice.drop n).map .added ++ [] :=
      (append_nil _).symm
    refine ⟨?_, ?_, ?_, ?_⟩
    · intro k
      rw [hrs, deletes_ite (by intro hp; push Not at hp; simp [hp.1]), hlines,
        decide_eq_decide, mem_deletedAt_stretch]
      simp [stop, deletedAt]
    · intro g
      rw [hrs, inserts_ite (by intro hp; push Not at hp; simp [hp.2]), hlines,
        insertionsAt_stretch]
      simp [insertionsAt, insertedAt]
    · rw [hrs]
      split_ifs <;> simp
    · intro r hr
      rw [hrs] at hr
      split_ifs at hr
      · rw [mem_singleton.mp hr]
        simp only [stop]
        omega
      · cases hr
  | cons p contexts ih =>
    obtain ⟨i, j⟩ := p
    obtain ⟨hoi, hnj, ⟨line, hi, hj⟩, hrest⟩ := h
    have hi' : i < pattern.length := (List.getElem?_eq_some_iff.mp hi).1
    have hj' : j < newSlice.length := (List.getElem?_eq_some_iff.mp hj).1
    have hspec := ih hrest
    have hrs : stretchReplacements pattern newSlice startIdx o n ((i, j) :: contexts)
        = (if o ≠ i ∨ n ≠ j then [⟨startIdx + o, i - o, slice newSlice n j⟩] else [])
          ++ stretchReplacements pattern newSlice startIdx (i + 1) (j + 1) contexts := by
      rw [stretchReplacements, if_neg (by omega)]
    have hlen : (slice pattern o i).length = i - o := length_slice hi'.le
    have hpos : startIdx + o + (i - o) = startIdx + i := by omega
    refine ⟨?_, ?_, ?_, ?_⟩
    · intro k
      rw [hrs, deletes_append, deletes_ite (by intro hp; push Not at hp; simp [hp.1]),
        hspec.deletes_eq, interleave, ← Bool.decide_or, decide_eq_decide, mem_deletedAt_stretch,
        hlen, hpos, deletedAt]
      simp only [stop]
      rw [hpos, Nat.add_assoc]
    · intro g
      rw [hrs, inserts_append, inserts_ite (by intro hp; push Not at hp; simp [hp.2, slice]),
        hspec.inserts_eq, interleave, insertionsAt_stretch, hlen, hpos]
      rfl
    · rw [hrs, pairwise_append]
      refine ⟨by split_ifs <;> simp, hspec.ordered, ?_⟩
      intro r hr r' hr'
      have hb := hspec.bounds r' hr'
      split_ifs at hr
      · rw [mem_singleton.mp hr]
        simp only [stop]
        omega
      · cases hr
    · intro r hr
      rw [hrs] at hr
      rcases mem_append.mp hr with hr | hr
      · split_ifs at hr
        · rw [mem_singleton.mp hr]
          simp only [stop]
          omega
        · cases hr
      · have hb := hspec.bounds r hr
        omega

/-! ## The lines a located chunk is applied with -/

/-- The context places that are left when the sides get shorter: the loop stops at the
first one out of range. -/
def contextsWithin (pattern newSlice : List Text) (contexts : List (ℕ × ℕ)) : List (ℕ × ℕ) :=
  contexts.takeWhile (fun p => decide (p.1 < pattern.length ∧ p.2 < newSlice.length))

/-- A chunk with shorter sides. -/
def UpdateFileChunk.restrict (c : UpdateFileChunk) (pattern newSlice : List Text) :
    UpdateFileChunk :=
  { c with
    oldLines := pattern
    newLines := newSlice
    contextLineIndices := contextsWithin pattern newSlice c.contextLineIndices }

/-- Context places beyond the cut have no effect. -/
theorem stretchReplacements_within (pattern newSlice : List Text) (startIdx o n : ℕ)
    (contexts : List (ℕ × ℕ)) :
    stretchReplacements pattern newSlice startIdx o n contexts
      = stretchReplacements pattern newSlice startIdx o n
          (contextsWithin pattern newSlice contexts) := by
  induction contexts generalizing o n with
  | nil => rfl
  | cons p contexts ih =>
    obtain ⟨i, j⟩ := p
    unfold contextsWithin
    by_cases h : i < pattern.length ∧ j < newSlice.length
    · have hin : ¬ (pattern.length ≤ i ∨ newSlice.length ≤ j) := by omega
      rw [takeWhile_cons_of_pos (by simpa using h)]
      simp only [stretchReplacements, if_neg hin]
      rw [ih]
      rfl
    · have hout : pattern.length ≤ i ∨ newSlice.length ≤ j := by omega
      rw [takeWhile_cons_of_neg (by simpa using h)]
      simp only [stretchReplacements, if_pos hout]

/-- Context places stay consistent when the end of a chunk is cut off. -/
theorem ContextsMatch.within {old new : List Text} (h : ContextsMatch old new o n contexts)
    (hpattern : pattern <+: old) (hnew : newSlice <+: new) (ho : o ≤ pattern.length)
    (hn : n ≤ newSlice.length) :
    ContextsMatch pattern newSlice o n (contextsWithin pattern newSlice contexts) := by
  induction contexts generalizing o n with
  | nil => exact ⟨ho, hn⟩
  | cons p contexts ih =>
    obtain ⟨i, j⟩ := p
    obtain ⟨hoi, hnj, ⟨line, hi, hj⟩, hrest⟩ := h
    unfold contextsWithin
    by_cases hin : i < pattern.length ∧ j < newSlice.length
    · rw [takeWhile_cons_of_pos (by simpa using hin)]
      refine ⟨hoi, hnj, ⟨line, ?_, ?_⟩, ih hrest hin.1 hin.2⟩
      · obtain ⟨rest, rfl⟩ := hpattern
        rw [← hi, getElem?_append_left hin.1]
      · obtain ⟨rest, rfl⟩ := hnew
        rw [← hj, getElem?_append_left hin.2]
    · rw [takeWhile_cons_of_neg (by simpa using hin)]
      exact ⟨ho, hn⟩

theorem ContextsMatch.lt_length {old new : List Text} (h : ContextsMatch old new o n contexts) :
    ∀ p ∈ contexts, p.1 < old.length ∧ p.2 < new.length := by
  induction contexts generalizing o n with
  | nil => intro p hp; cases hp
  | cons q contexts ih =>
    obtain ⟨-, -, ⟨line, hi, hj⟩, hrest⟩ := h
    intro p hp
    rcases mem_cons.mp hp with rfl | hp
    · exact ⟨(List.getElem?_eq_some_iff.mp hi).1, (List.getElem?_eq_some_iff.mp hj).1⟩
    · exact ih hrest p hp

variable {c : UpdateFileChunk}

theorem contextsWithin_self (h : c.Consistent) :
    contextsWithin c.oldLines c.newLines c.contextLineIndices = c.contextLineIndices :=
  takeWhile_eq_self_iff.mpr (fun p hp => by simpa using ContextsMatch.lt_length h p hp)

theorem restrict_self (h : c.Consistent) : c.restrict c.oldLines c.newLines = c := by
  unfold restrict
  rw [contextsWithin_self h]

theorem UpdateFileChunk.Consistent.restrict (h : c.Consistent) (hpattern : pattern <+: c.oldLines)
    (hnew : newSlice <+: c.newLines) : (c.restrict pattern newSlice).Consistent :=
  ContextsMatch.within h hpattern hnew (Nat.zero_le _) (Nat.zero_le _)

theorem dropSentinel_isPrefix (side : List Text) : dropSentinel side <+: side := by
  unfold dropSentinel
  split_ifs
  · exact dropLast_prefix side
  · exact prefix_rfl

/-- A chunk with an empty removed line before its last added lines, taken apart. -/
theorem chunkLines_eq_removed_added (hc : c.Consistent) {ls : List ChunkLine} {added : List Text}
    (h : chunkLines c = ls ++ .removed [] :: added.map .added) :
    ∃ d : UpdateFileChunk, d.Consistent ∧ chunkLines d = ls ∧ d.oldLines = c.oldLines.dropLast
      ∧ d.newLines ++ added = c.newLines ∧ d.contextLineIndices = c.contextLineIndices := by
  rw [show ls ++ .removed [] :: added.map ChunkLine.added
    = (ls ++ [.removed []]) ++ added.map .added by simp] at h
  obtain ⟨e, he, hlines, hold, hnew, hctx⟩ := chunkLines_eq_append_added hc h
  obtain ⟨d, hd, hls, hold', hnew', hctx'⟩ := chunkLines_eq_concat he hlines
  refine ⟨d, hd, hls, ?_, ?_, hctx'.trans hctx⟩
  · rw [← hold, ← hold']
    simp [pushLine, pushOldLine]
  · rw [← hnew, ← hnew']
    rfl

/-- The chunk without its sentinel lines has the lines that the specification asks for. -/
theorem chunkLines_restrict_of_withoutSentinel (hc : c.Consistent) {ls : List ChunkLine}
    (h : WithoutSentinel (chunkLines c) ls) :
    chunkLines (c.restrict c.oldLines.dropLast (dropSentinel c.newLines)) = ls := by
  -- a consistent chunk with the remaining sides has these lines, and the rest of the
  -- context places are in range
  have hwithin : ∀ d : UpdateFileChunk, d.oldLines = c.oldLines.dropLast →
      d.newLines = dropSentinel c.newLines →
      contextsWithin d.oldLines d.newLines c.contextLineIndices = d.contextLineIndices →
      chunkLines (c.restrict c.oldLines.dropLast (dropSentinel c.newLines)) = chunkLines d := by
    intro d hold hnew hctx
    unfold chunkLines restrict
    rw [← hold, ← hnew, hctx]
  generalize hlines : chunkLines c = full at h
  cases h with
  | context =>
    obtain ⟨d, hd, rfl, hold, hnew, hctx⟩ := chunkLines_eq_concat hc hlines
    refine hwithin d ?_ ?_ ?_
    · rw [← hold]
      simp [pushLine, pushContextLine]
    · rw [← hnew]
      simp [pushLine, pushContextLine, dropSentinel]
    · rw [← hctx]
      unfold contextsWithin
      simp only [pushLine, pushContextLine]
      rw [takeWhile_append_of_pos
        (fun p hp => by simpa using ContextsMatch.lt_length hd p hp)]
      simp
  | removed ls added hlast =>
    obtain ⟨d, hd, rfl, hold, hnew, hctx⟩ := chunkLines_eq_removed_added hc hlines
    have hd' := hd.pushAdded added
    have hadded := chunkLines_pushAdded hd added
    rw [← hadded, newSide_chunkLines hd'] at hlast
    rw [← hadded]
    refine hwithin _ hold ?_ ?_
    · show d.newLines ++ added = _
      rw [hnew] at hlast ⊢
      unfold dropSentinel
      rw [if_neg hlast]
    · rw [← hctx]
      exact contextsWithin_self hd'
  | both ls added =>
    rw [show ls ++ .removed [] :: added.map ChunkLine.added ++ [.added []]
      = ls ++ .removed [] :: (added ++ [[]]).map .added by simp] at hlines
    obtain ⟨d, hd, rfl, hold, hnew, hctx⟩ := chunkLines_eq_removed_added hc hlines
    rw [← chunkLines_pushAdded hd added]
    refine hwithin _ hold ?_ ?_
    · show d.newLines ++ added = _
      rw [← hnew, ← append_assoc]
      simp [dropSentinel]
    · rw [← hctx]
      exact contextsWithin_self (hd.pushAdded added)

/-! ## One chunk -/

/-- What the replacements of one chunk, placed at `p`, do to a file of `size` lines, and
where they stand between the line indices before and after the chunk. -/
structure ChunkSpec (size lineIndex lineIndex' : ℕ) (p : Placement)
    (rs : List (Replacement Text)) : Prop where
  deletes_eq : ∀ i, deletes rs i = decide (i ∈ deletedAt p.start p.lines)
  inserts_eq : ∀ g, inserts rs g = insertionsAt g p.start p.start p.lines
  ordered : rs.Pairwise (fun r r' => r.stop ≤ r'.start)
  within : ∀ r ∈ rs, lineIndex ≤ r.start ∧ r.stop ≤ size
  before : ∀ r ∈ rs, r.stop ≤ lineIndex' ∨ (r.len = 0 ∧ r.start = size)

variable {path : Text} {lineIndex : ℕ}

/-- The change context moves the search behind a line that it names. -/
theorem seekChangeContext_eq_ok (hidx : lineIndex ≤ fileLines.length)
    (h : seekChangeContext fileLines path lineIndex c.changeContext = .ok i) :
    SearchesFrom fileLines lineIndex c i ∧ lineIndex ≤ i ∧ i ≤ fileLines.length := by
  unfold SearchesFrom
  cases hctx : c.changeContext with
  | none =>
    rw [hctx] at h
    obtain rfl := Except.ok.inj h
    exact ⟨rfl, le_rfl, hidx⟩
  | some contextLine =>
    rw [hctx] at h
    unfold seekChangeContext at h
    cases hseek : seekSequence fileLines [contextLine] lineIndex false with
    | none => simp [hseek] at h
    | some j =>
      simp only [hseek] at h
      obtain rfl := Except.ok.inj h
      obtain ⟨hj, hstands⟩ := seekSequence_eq_some hseek hidx
      have hbound := hstands.1
      rw [length_singleton] at hbound
      exact ⟨⟨j, hj, hstands, rfl⟩, by omega, hbound⟩

/-- A chunk without old lines goes to the end of the file. -/
theorem chunkSpec_append (hc : c.Consistent) (hold : c.oldLines = []) {size : ℕ}
    (hidx : lineIndex ≤ size) (lineIndex' : ℕ) :
    ChunkSpec size lineIndex lineIndex' ⟨size, chunkLines c⟩ [⟨size, 0, c.newLines⟩] := by
  have hctx : c.contextLineIndices = [] := by
    rw [eq_nil_iff_forall_not_mem]
    intro p hp
    have hlt := (ContextsMatch.lt_length hc p hp).1
    rw [hold] at hlt
    exact absurd hlt (Nat.not_lt_zero _)
  have hlines : chunkLines c = ([] : List Text).map .removed ++ c.newLines.map .added ++ [] := by
    unfold chunkLines
    rw [hctx, hold]
    simp [interleave]
  refine ⟨?_, ?_, by simp, ?_, ?_⟩
  · intro i
    rw [hlines, deletes_cons, show deletes ([] : List (Replacement Text)) i = false from rfl,
      Bool.or_false, decide_eq_decide, mem_deletedAt_stretch]
    simp [stop, deletedAt]
  · intro g
    rw [hlines, insertionsAt_stretch, inserts_cons]
    simp [insertionsAt, insertedAt, inserts]
  · intro r hr
    rw [mem_singleton.mp hr]
    exact ⟨hidx, le_rfl⟩
  · intro r hr
    rw [mem_singleton.mp hr]
    exact .inr ⟨rfl, rfl⟩

/-- A located chunk stands where its old lines match. -/
theorem locateChunk_eq_some {searchStart : ℕ} (hc : c.Consistent)
    (hstart : searchStart ≤ fileLines.length)
    (h : locateChunk fileLines searchStart c = some (start, pattern, newSlice)) :
    (c.restrict pattern newSlice).Consistent
      ∧ PlacedFrom fileLines searchStart c ⟨start, chunkLines (c.restrict pattern newSlice)⟩ := by
  unfold locateChunk at h
  cases hseek : seekSequence fileLines c.oldLines searchStart c.isEndOfFile with
  | some i =>
    simp only [hseek, Option.some.injEq, Prod.mk.injEq] at h
    obtain ⟨rfl, rfl, rfl⟩ := h
    obtain ⟨hle, hstands⟩ := seekSequence_eq_some hseek hstart
    rw [restrict_self hc]
    refine ⟨hc, hle, ?_, .inl rfl⟩
    rw [oldSide_chunkLines hc]
    exact hstands
  | none =>
    simp only [hseek] at h
    split_ifs at h with hlast
    obtain ⟨i, hseek', h⟩ := Option.map_eq_some_iff.mp h
    obtain ⟨rfl, rfl, rfl⟩ : i = start ∧ c.oldLines.dropLast = pattern
        ∧ dropSentinel c.newLines = newSlice := by simpa using h
    obtain ⟨hle, hstands⟩ := seekSequence_eq_some hseek' hstart
    have hdropped := dropLast_prefix c.oldLines
    have hc' := hc.restrict hdropped (dropSentinel_isPrefix c.newLines)
    have hold : oldSide (chunkLines (c.restrict c.oldLines.dropLast (dropSentinel c.newLines)))
        = c.oldLines.dropLast := oldSide_chunkLines hc'
    refine ⟨hc', hle, ?_, .inr ⟨hseek, hlast, hold, ?_⟩⟩
    · rw [hold]
      exact hstands
    · exact fun ls hls => chunkLines_restrict_of_withoutSentinel hc hls

/-- A located chunk replaces the stretches between its context lines. -/
theorem chunkSpec_located {searchStart : ℕ} (hc : (c.restrict pattern newSlice).Consistent)
    (hidx : lineIndex ≤ searchStart)
    (hplaced : PlacedFrom fileLines searchStart c ⟨start, chunkLines (c.restrict pattern newSlice)⟩) :
    ChunkSpec fileLines.length lineIndex (start + pattern.length)
      ⟨start, chunkLines (c.restrict pattern newSlice)⟩
      (stretchReplacements pattern newSlice start 0 0 c.contextLineIndices) := by
  have hspec := stretchReplacements_spec hc start
  have hbound := hplaced.2.1.1
  rw [oldSide_chunkLines hc] at hbound
  have hle : searchStart ≤ start := hplaced.1
  rw [stretchReplacements_within]
  refine ⟨hspec.deletes_eq, hspec.inserts_eq, hspec.ordered, ?_, ?_⟩
  · intro r hr
    have hb := hspec.bounds r hr
    exact ⟨by omega, hb.2.trans hbound⟩
  · exact fun r hr => .inl (hspec.bounds r hr).2

variable {rs : List (Replacement Text)}

/-- **One chunk.**  The chunk loop places the chunk and collects its replacements. -/
theorem chunkReplacements_spec {lineIndex' : ℕ} (hc : c.Consistent)
    (hidx : lineIndex ≤ fileLines.length)
    (h : chunkReplacements fileLines path lineIndex c = .ok (rs, lineIndex')) :
    ∃ p searchStart, SearchesFrom fileLines lineIndex c searchStart
      ∧ (if c.oldLines = [] then p = ⟨fileLines.length, chunkLines c⟩ ∧ lineIndex' = searchStart
        else PlacedFrom fileLines searchStart c p
          ∧ lineIndex' = p.start + (oldSide p.lines).length)
      ∧ lineIndex ≤ lineIndex' ∧ lineIndex' ≤ fileLines.length
      ∧ ChunkSpec fileLines.length lineIndex lineIndex' p rs := by
  obtain ⟨searchStart, hctx, h⟩ := bind_eq_ok.mp h
  obtain ⟨hfrom, hle, hlen⟩ := seekChangeContext_eq_ok hidx hctx
  by_cases hold : c.oldLines = []
  · simp only [if_pos hold] at h ⊢
    obtain ⟨rfl, rfl⟩ := Prod.mk.inj (Except.ok.inj h)
    exact ⟨_, searchStart, hfrom, ⟨rfl, rfl⟩, hle, hlen, chunkSpec_append hc hold hidx _⟩
  · simp only [if_neg hold] at h ⊢
    cases hloc : locateChunk fileLines searchStart c with
    | none => simp [hloc] at h
    | some found =>
      obtain ⟨start, pattern, newSlice⟩ := found
      simp only [hloc] at h
      obtain ⟨rfl, rfl⟩ := Prod.mk.inj (Except.ok.inj h)
      obtain ⟨hc', hplaced⟩ := locateChunk_eq_some hc hlen hloc
      have hold' : oldSide (chunkLines (c.restrict pattern newSlice)) = pattern :=
        oldSide_chunkLines hc'
      have hstart : searchStart ≤ start := hplaced.1
      have hbound := hplaced.2.1.1
      rw [hold'] at hbound
      refine ⟨_, searchStart, hfrom, ⟨hplaced, ?_⟩, by omega, hbound,
        chunkSpec_located hc' hle hplaced⟩
      rw [hold']

/-! ## All chunks -/

theorem insertedBy_cons (p : Placement) (ps : List Placement) (g : ℕ) :
    insertedBy (p :: ps) g = insertionsAt g p.start p.start p.lines ++ insertedBy ps g := by
  unfold insertedBy insertionsAt
  rw [flatMap_cons, filter_append, map_append]

/-- **All chunks.**  The collected replacements are compatible, in range, and do what the
placed chunks say. -/
theorem collectReplacements_spec {chunks : List UpdateFileChunk} (hc : ∀ c ∈ chunks, c.Consistent)
    (hidx : lineIndex ≤ fileLines.length)
    (h : collectReplacements fileLines path lineIndex chunks = .ok rs) :
    ∃ ps, Placed fileLines lineIndex chunks ps ∧ rs.Pairwise Compatible
      ∧ (∀ r ∈ rs, lineIndex ≤ r.start ∧ r.stop ≤ fileLines.length)
      ∧ (∀ i, deletes rs i = deletedBy ps i) ∧ ∀ g, inserts rs g = insertedBy ps g := by
  induction chunks generalizing lineIndex rs with
  | nil =>
    obtain rfl := Except.ok.inj h
    exact ⟨[], trivial, .nil, by simp, fun _ => rfl, fun _ => rfl⟩
  | cons c chunks ih =>
    obtain ⟨⟨rs₁, lineIndex'⟩, hchunk, h⟩ := bind_eq_ok.mp h
    obtain ⟨rs₂, hrest, h⟩ := bind_eq_ok.mp h
    obtain rfl := Except.ok.inj h
    obtain ⟨p, searchStart, hfrom, hplaced, hle, hlen, hspec⟩ :=
      chunkReplacements_spec (hc c (.head _ ..)) hidx hchunk
    obtain ⟨ps, hps, hcompat, hwithin, hdel, hins⟩ :=
      ih (fun c' h' => hc c' (.tail _ h')) hlen hrest
    refine ⟨p :: ps, ⟨searchStart, hfrom, ?_⟩, ?_, ?_, ?_, ?_⟩
    · split_ifs at hplaced ⊢
      · obtain ⟨hp, rfl⟩ := hplaced
        exact ⟨hp, hps⟩
      · obtain ⟨hp, rfl⟩ := hplaced
        exact ⟨hp, hps⟩
    · refine pairwise_append.mpr ⟨hspec.ordered.imp .inl, hcompat, ?_⟩
      intro r hr r' hr'
      have hr'w := hwithin r' hr'
      rcases hspec.before r hr with hb | ⟨hzero, hend⟩
      · exact .inl (by omega)
      · exact .inr ⟨hzero, by omega⟩
    · intro r hr
      rcases mem_append.mp hr with hr | hr
      · exact hspec.within r hr
      · have hw := hwithin r hr
        exact ⟨by omega, hw.2⟩
    · intro i
      rw [deletes_append, hspec.deletes_eq, hdel]
      rfl
    · intro g
      rw [inserts_append, hspec.inserts_eq, hins, insertedBy_cons]

/-! ## Source files -/

/-- The lines of a text put together are the text. -/
theorem flatMap_render_parseLines (current contents : Text) :
    (parseLines current contents).flatMap render = current ++ contents := by
  fun_induction parseLines current contents with
  | case1 => simp
  | case2 current hne => simp [render]
  | case3 current rest ih => simp [render, LineEnding.asStr, ih]
  | case4 current rest hlf ih => simp [render, LineEnding.asStr, ih]
  | case5 current rest ih => simp [render, LineEnding.asStr, ih]
  | case6 current c rest h1 h2 h3 ih => simp [ih]

theorem intoContents_parse (contents : Text) : (SourceFile.parse contents).intoContents = contents :=
  flatMap_render_parseLines [] contents

/-- Only the last line of a file may be without an ending. -/
theorem ending_of_mem_dropLast_parseLines (current contents : Text) :
    ∀ l ∈ (parseLines current contents).dropLast, l.ending.isSome = true := by
  have hcons : ∀ (ending : LineEnding) (text : Text) (ls : List SourceLine),
      (∀ l ∈ ls.dropLast, l.ending.isSome = true) →
        ∀ l ∈ (⟨text, some ending⟩ :: ls : List SourceLine).dropLast, l.ending.isSome = true := by
    intro ending text ls hls l hl
    cases ls with
    | nil => cases hl
    | cons l' ls =>
      rcases mem_cons.mp hl with rfl | hl
      · rfl
      · exact hls l hl
  fun_induction parseLines current contents with
  | case1 => simp
  | case2 current hne => simp
  | case3 current rest ih => exact hcons _ _ _ ih
  | case4 current rest hlf ih => exact hcons _ _ _ ih
  | case5 current rest ih => exact hcons _ _ _ ih
  | case6 current c rest h1 h2 h3 ih => exact ih

/-- The text of a line stops before the first CR or LF. -/
theorem not_mem_text_parseLines (current contents : Text) (h : '\r' ∉ current ∧ '\n' ∉ current) :
    ∀ l ∈ parseLines current contents, '\r' ∉ l.text ∧ '\n' ∉ l.text := by
  have hnil : '\r' ∉ ([] : Text) ∧ '\n' ∉ ([] : Text) := ⟨not_mem_nil, not_mem_nil⟩
  fun_induction parseLines current contents with
  | case1 => simp
  | case2 current hne => simpa using h
  | case3 current rest ih => exact forall_mem_cons.2 ⟨h, ih hnil⟩
  | case4 current rest hlf ih => exact forall_mem_cons.2 ⟨h, ih hnil⟩
  | case5 current rest ih => exact forall_mem_cons.2 ⟨h, ih hnil⟩
  | case6 current c rest hcrLf hcr hlf ih =>
    -- the character is none of the two, or the line would have ended before it
    have hconcat : ∀ a : Char, a ∉ current → c ≠ a → a ∉ current ++ [c] := by
      intro a ha hne hmem
      rcases mem_append.1 hmem with hmem | hmem
      · exact ha hmem
      · exact hne (mem_singleton.1 hmem).symm
    exact ih ⟨hconcat _ h.1 hcr, hconcat _ h.2 hlf⟩

/-- **Parsing a file is undone by writing it.**  Whatever line endings the contents mix and
however they end, the parsed file is written back as it was, and no line text has a CR or
an LF. -/
theorem sourceFile_roundTrip (contents : Text) :
    (SourceFile.parse contents).intoContents = contents ∧
      ∀ text ∈ (SourceFile.parse contents).lineTexts, '\r' ∉ text ∧ '\n' ∉ text := by
  refine ⟨intoContents_parse contents, fun text htext => ?_⟩
  obtain ⟨l, hl, rfl⟩ := mem_map.1 htext
  exact not_mem_text_parseLines [] contents ⟨not_mem_nil, not_mem_nil⟩ l hl

/-! ## Updates are edits -/

/-- The text of a list of lines. -/
def renderLines (ls : List SourceLine) : Text := ls.flatMap render

/-- Replacements as placements of the chunks, one behind the other. -/
theorem computeReplacements_eq_ok {chunks : List UpdateFileChunk} (hc : ∀ c ∈ chunks, c.Consistent)
    (h : computeReplacements fileLines path chunks = .ok rs) :
    ∃ collected ps, rs = sortByStart collected ∧ Placed fileLines 0 chunks ps
      ∧ collected.Pairwise Compatible ∧ (∀ r ∈ collected, r.stop ≤ fileLines.length)
      ∧ (∀ i, deletes collected i = deletedBy ps i)
      ∧ ∀ g, inserts collected g = insertedBy ps g := by
  unfold computeReplacements at h
  cases hcollect : collectReplacements fileLines path 0 chunks with
  | error e => rw [hcollect] at h; cases h
  | ok collected =>
    rw [hcollect] at h
    obtain rfl := Except.ok.inj h
    obtain ⟨ps, hplaced, hcompat, hwithin, hdel, hins⟩ :=
      collectReplacements_spec hc (Nat.zero_le _) hcollect
    exact ⟨collected, ps, rfl, hplaced, hcompat, fun r hr => (hwithin r hr).2, hdel, hins⟩

theorem lines_applyReplacements {file : SourceFile} (h : rs.Pairwise Compatible)
    (hlen : ∀ r ∈ rs, r.stop ≤ file.lines.length) :
    (file.applyReplacements (sortByStart rs)).lines
      = (weave (deletes rs) (fun g => (inserts rs g).map (.inserted file.preferredEnding)) 0
          file.lines).map (terminate file.preferredEnding) := by
  unfold SourceFile.applyReplacements
  rw [applyFrom_sort_eq_weave (inserted file.preferredEnding) h hlen]

/-- **Updates are edits.**  Take the chunks of an update hunk of any parsed patch and any
file contents on which they can be applied.  The contents are lines, all but the last one
terminated, and the new contents are these lines edited by the chunks: each chunk has a
place where its old side stands, the lines its removed lines stand at are deleted, its
added lines go in where their change starts, and all other lines stay, in order and with
their endings, but for an ending added to an unterminated one. -/
theorem deriveNewContents_edits (patch : Text) (args : ApplyPatchArgs)
    (hparse : parsePatch patch = .ok args) (path : Text) (movePath : Option Text)
    (chunks : List UpdateFileChunk) (hmem : .updateFile path movePath chunks ∈ args.hunks)
    (pathText contents newContents : Text)
    (h : deriveNewContents pathText contents chunks = .ok newContents) :
    ∃ ps, Placed (SourceFile.parse contents).lineTexts 0 chunks ps
      ∧ contents = renderLines (SourceFile.parse contents).lines
      ∧ (∀ l ∈ (SourceFile.parse contents).lines.dropLast, l.ending.isSome = true)
      ∧ newContents = renderLines (editedLines (SourceFile.parse contents) ps) := by
  obtain ⟨rs, hrs, h⟩ := bind_eq_ok.mp h
  obtain rfl := Except.ok.inj h
  have hconsistent := consistentHunks_of_parsePatch hparse path movePath chunks hmem
  obtain ⟨collected, ps, rfl, hplaced, hcompat, hwithin, hdel, hins⟩ :=
    computeReplacements_eq_ok hconsistent hrs
  refine ⟨ps, hplaced, (intoContents_parse contents).symm,
    ending_of_mem_dropLast_parseLines [] contents, ?_⟩
  unfold SourceFile.intoContents editedLines renderLines
  rw [lines_applyReplacements hcompat (by simpa [SourceFile.lineTexts] using hwithin), funext hdel,
    funext hins]

/-- The patch that keeps a line `x` and changes the line `a` behind it. -/
def changeLinePatch : Text :=
  "*** Begin Patch\n*** Update File: f\n@@\n x\n-a\n+b\n*** End Patch".toList

/-- The chunk of `changeLinePatch`. -/
def changeLineChunk : UpdateFileChunk where
  oldLines := ["x".toList, "a".toList]
  newLines := ["x".toList, "b".toList]
  contextLineIndices := [(0, 0)]

/-- Line endings survive, and the unterminated last line is replaced by a terminated one. -/
theorem deriveNewContents_edits_changeLine :
    ∃ ps, Placed (SourceFile.parse "x\r\na".toList).lineTexts 0 [changeLineChunk] ps
      ∧ "x\r\na".toList = renderLines (SourceFile.parse "x\r\na".toList).lines
      ∧ (∀ l ∈ (SourceFile.parse "x\r\na".toList).lines.dropLast, l.ending.isSome = true)
      ∧ "x\r\nb\r\n".toList = renderLines (editedLines (SourceFile.parse "x\r\na".toList) ps) :=
  deriveNewContents_edits changeLinePatch
    ⟨changeLinePatch, [.updateFile "f".toList none [changeLineChunk]], none, none⟩
    (by decide) "f".toList none [changeLineChunk] (by decide) "f".toList _ _
    (by decide)

/-- The patch that changes `a` and an empty line to `b` and an empty line. -/
def sentinelPatch : Text :=
  "*** Begin Patch\n*** Update File: f\n@@\n-a\n-\n+b\n+\n*** End Patch".toList

/-- In a file without the empty line the final empty lines of the chunk stand for the
final newline: both are dropped, and of the two added lines only one is inserted. -/
theorem sentinel_added_line_not_inserted :
    (parsePatch sentinelPatch).map (·.hunks)
        = .ok [.updateFile "f".toList none
            [{ oldLines := ["a".toList, []], newLines := ["b".toList, []] }]]
      ∧ deriveNewContents "f".toList "a\n".toList
            [{ oldLines := ["a".toList, []], newLines := ["b".toList, []] }]
        = .ok "b\n".toList
      ∧ (SourceFile.parse "b\n".toList).lineTexts = ["b".toList] := by
  decide

/-! ## The replacements are safe to apply -/

/-- **Replacements do not overlap.**  Take the chunks of an update hunk of any parsed
patch and any file contents.  The computed replacements are ordered by their start, do not
overlap and stay within the lines of the file, so the pass that applies them neither
underflows nor runs out of lines.  Its result is made of the inserted lines and of the
lines outside the replaced ranges, in order, with their texts and endings; only an
unterminated line gets an ending. -/
theorem computeReplacements_inRange (patch : Text) (args : ApplyPatchArgs)
    (hparse : parsePatch patch = .ok args) (path : Text) (movePath : Option Text)
    (chunks : List UpdateFileChunk) (hmem : .updateFile path movePath chunks ∈ args.hunks)
    (pathText contents : Text) (rs : List (Replacement Text))
    (h : computeReplacements (SourceFile.parse contents).lineTexts pathText chunks = .ok rs) :
    rs.Pairwise (fun r r' => r.start ≤ r'.start)
      ∧ rs.Pairwise (fun r r' => r.stop ≤ r'.start)
      ∧ (∀ r ∈ rs, r.stop ≤ (SourceFile.parse contents).lines.length)
      ∧ InRange (SourceFile.parse contents).lines.length 0 rs
      ∧ ((SourceFile.parse contents).applyReplacements rs).lines
        = (weave (deletes rs)
            (fun g => (inserts rs g).map (.inserted (SourceFile.parse contents).preferredEnding)) 0
            (SourceFile.parse contents).lines).map
              (SourceLine.terminate (SourceFile.parse contents).preferredEnding) := by
  have hconsistent := consistentHunks_of_parsePatch hparse path movePath chunks hmem
  obtain ⟨collected, ps, rfl, -, hcompat, hwithin, -, -⟩ := computeReplacements_eq_ok hconsistent h
  have hlen : ∀ r ∈ collected, r.stop ≤ (SourceFile.parse contents).lines.length := by
    simpa [SourceFile.lineTexts] using hwithin
  have hordered := pairwise_sortByStart hcompat
  have hsorted : ∀ r ∈ sortByStart collected, r.stop ≤ (SourceFile.parse contents).lines.length :=
    fun r hr => hlen r (mem_sortByStart.mp hr)
  refine ⟨hordered.imp fun {r r'} hle => ?_, hordered, hsorted,
    inRange_of_pairwise hordered (fun _ _ => Nat.zero_le _) hsorted, ?_⟩
  · show r.start ≤ r'.start
    unfold Replacement.stop at hle
    omega
  · rw [lines_applyReplacements hcompat hlen, deletes_sortByStart,
      funext (inserts_sortByStart hcompat)]

/-- The one replacement of `changeLinePatch` in the file `x`, `a`. -/
theorem computeReplacements_inRange_changeLine :
    computeReplacements (SourceFile.parse "x\r\na".toList).lineTexts "f".toList [changeLineChunk]
        = .ok [⟨1, 1, ["b".toList]⟩]
      ∧ InRange (SourceFile.parse "x\r\na".toList).lines.length 0
        [⟨1, 1, ["b".toList]⟩] :=
  have h : computeReplacements (SourceFile.parse "x\r\na".toList).lineTexts "f".toList
      [changeLineChunk] = .ok [⟨1, 1, ["b".toList]⟩] := by decide
  ⟨h, (computeReplacements_inRange changeLinePatch
    ⟨changeLinePatch, [.updateFile "f".toList none [changeLineChunk]], none, none⟩
    (by decide) "f".toList none [changeLineChunk] (by decide) "f".toList _ _ h).2.2.2.1⟩

/-! ## What the search finds -/

/-- The outcome of a search from `start` on: the first place under the strictest pass
that has one, and nothing when no pass has any. -/
def FirstMatch (fileLines pattern : List Text) (start : ℕ) : Option ℕ → Prop
  | some i => start ≤ i ∧ ∃ stricter pass looser, matchPasses = stricter ++ pass :: looser
      ∧ matchesAt pass fileLines pattern i = true
      ∧ (∀ j, start ≤ j → j < i → matchesAt pass fileLines pattern j = false)
      ∧ ∀ pass' ∈ stricter, ∀ j, start ≤ j → matchesAt pass' fileLines pattern j = false
  | none => ∀ pass ∈ matchPasses, ∀ j, start ≤ j → matchesAt pass fileLines pattern j = false

/-- The pattern stands at the end of the file, not before `start`. -/
def StandsAtEnd (fileLines pattern : List Text) (start : ℕ) : Prop :=
  start ≤ fileLines.length - pattern.length
    ∧ ∃ pass ∈ matchPasses,
        matchesAt pass fileLines pattern (fileLines.length - pattern.length) = true

/-- What the comment on `seek_sequence` promises: with `eof` the end of the file is tried
first, and the search from `start` is the fallback. -/
def SeekDocumented (fileLines pattern : List Text) (start : ℕ) (eof : Bool) (r : Option ℕ) : Prop :=
  (eof = true ∧ StandsAtEnd fileLines pattern start →
      r = some (fileLines.length - pattern.length))
    ∧ (¬ (eof = true ∧ StandsAtEnd fileLines pattern start) → FirstMatch fileLines pattern start r)

theorem add_length_le_of_matchesAt {pass : Text → Text} {rest : List Text} {line : Text}
    (h : matchesAt pass fileLines (line :: rest) i = true) :
    i + (line :: rest).length ≤ fileLines.length := by
  have hlen := congrArg List.length (beq_iff_eq.mp h)
  simp only [length_map, length_take, length_drop, length_cons] at hlen ⊢
  omega

/-- The search finds the first match of the strictest kind there is. -/
theorem seekSequence_firstMatch (fileLines : List Text) (line : Text) (rest : List Text)
    (start : ℕ) (eof : Bool) :
    FirstMatch fileLines (line :: rest) (searchStart fileLines (line :: rest) start eof)
      (seekSequence fileLines (line :: rest) start eof) := by
  have hmem : ∀ {pass j first}, first ≤ j → matchesAt pass fileLines (line :: rest) j = true →
      j ∈ List.range' first (fileLines.length - (line :: rest).length + 1 - first) := by
    intro pass j first hfirst hj
    have hle := add_length_le_of_matchesAt hj
    rw [mem_range'_1]
    omega
  unfold seekSequence
  rw [if_neg (cons_ne_nil line rest)]
  split_ifs with hshort
  · intro pass _ j _
    by_contra hj
    have hle := add_length_le_of_matchesAt (Bool.not_eq_false _ ▸ hj)
    omega
  · dsimp only
    cases hfind : matchPasses.findSome? _ with
    | none =>
      intro pass hpass j hj
      have hnone := find?_eq_none.mp (findSome?_eq_none_iff.mp hfind pass hpass)
      by_contra hmatch
      exact hnone j (hmem hj (by simpa using hmatch)) (by simpa using hmatch)
    | some i =>
      obtain ⟨stricter, pass, looser, hsplit, hpass, hstricter⟩ := findSome?_eq_some_iff.mp hfind
      obtain ⟨hi, hirange, hbefore⟩ := find?_range'_eq_some.mp hpass
      refine ⟨(mem_range'_1.mp hirange).1, stricter, pass, looser, hsplit, hi, ?_, ?_⟩
      · intro j hj hlt
        simpa using hbefore j hj hlt
      · intro pass' hpass' j hj
        by_contra hmatch
        exact find?_eq_none.mp (hstricter pass' hpass') j (hmem hj (by simpa using hmatch))
          (by simpa using hmatch)

theorem FirstMatch.matches (h : FirstMatch fileLines pattern start (some i)) :
    start ≤ i ∧ ∃ pass ∈ matchPasses, matchesAt pass fileLines pattern i = true := by
  obtain ⟨hle, stricter, pass, looser, hsplit, hi, -, -⟩ := h
  exact ⟨hle, pass, by simp [hsplit], hi⟩

/-- **The search and its comment.**  `seek_sequence` does what its comment says, except
where the fallback is needed: with `eof`, when the pattern stands somewhere at or after
`start` but not at the end of the file, the code finds nothing. -/
theorem seekSequence_documented_iff (fileLines : List Text) (line : Text) (rest : List Text)
    (start : ℕ) (eof : Bool) :
    SeekDocumented fileLines (line :: rest) start eof
        (seekSequence fileLines (line :: rest) start eof) ↔
      ¬ (eof = true ∧ ¬ StandsAtEnd fileLines (line :: rest) start
        ∧ ∃ pass ∈ matchPasses, ∃ j, start ≤ j
          ∧ matchesAt pass fileLines (line :: rest) j = true) := by
  have hfirst := seekSequence_firstMatch fileLines line rest start eof
  generalize hr : seekSequence fileLines (line :: rest) start eof = r at hfirst ⊢
  cases eof with
  | false => simpa [SeekDocumented, searchStart] using hfirst
  | true =>
    simp only [searchStart, if_true] at hfirst
    -- at or after the end of the file only its very end can match
    have hsome : ∀ i, r = some i → i = fileLines.length - (line :: rest).length
        ∧ StandsAtEnd fileLines (line :: rest) start := by
      rintro i rfl
      obtain ⟨hle, pass, hpass, hi⟩ := hfirst.matches
      have hfits := add_length_le_of_matchesAt hi
      obtain rfl : i = fileLines.length - (line :: rest).length := by omega
      exact ⟨rfl, by omega, pass, hpass, hi⟩
    constructor
    · rintro ⟨-, hdoc⟩ ⟨-, hend, pass, hpass, j, hj, hmatch⟩
      cases r with
      | some i => exact hend (hsome i rfl).2
      | none =>
        have hnone := hdoc (fun h => hend h.2) pass hpass j hj
        rw [hmatch] at hnone
        cases hnone
    · intro hfallback
      refine ⟨fun h => ?_, fun h => ?_⟩
      · obtain ⟨-, hstart, pass, hpass, hmatch⟩ := h
        cases r with
        | some i => rw [(hsome i rfl).1]
        | none =>
          have hnone := hfirst pass hpass _ (max_le le_rfl hstart)
          rw [hmatch] at hnone
          cases hnone
      · have hend : ¬ StandsAtEnd fileLines (line :: rest) start := fun h' => h ⟨rfl, h'⟩
        cases r with
        | some i => exact absurd (hsome i rfl).2 hend
        | none =>
          intro pass hpass j hj
          by_contra hmatch
          exact hfallback ⟨rfl, hend, pass, hpass, j, hj, by simpa using hmatch⟩

/-- A chunk marked as the end of the file whose old line stands only at its start: the
comment promises place 0, the code finds nothing. -/
theorem seekSequence_no_fallback :
    seekSequence ["a".toList, "b".toList] ["a".toList] 0 true = none
      ∧ ¬ SeekDocumented ["a".toList, "b".toList] ["a".toList] 0 true
        (seekSequence ["a".toList, "b".toList] ["a".toList] 0 true) := by
  have hnone : seekSequence ["a".toList, "b".toList] ["a".toList] 0 true = none := by
    decide
  refine ⟨hnone, fun hdoc => ?_⟩
  rw [hnone] at hdoc
  have hend : ¬ (true = true ∧ StandsAtEnd ["a".toList, "b".toList] ["a".toList] 0) := by
    unfold StandsAtEnd
    decide
  have hfirst := hdoc.2 hend id (by simp [matchPasses]) 0 le_rfl
  revert hfirst
  decide

end ApplyPatch
