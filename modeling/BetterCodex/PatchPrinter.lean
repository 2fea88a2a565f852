/-
# Printing patches

`printPatch` writes a list of hunks in the patch grammar of `parser.rs`: a header
line for each hunk, `+` lines for an added file, and for each chunk of an update a
`@@` line, its lines behind ` `, `-` and `+`, and the end-of-file marker.

The main result is the round trip `parsePatch_printPatch`: the text of well-formed
hunks is parsed back into the same hunks.  Well-formed is what the grammar can
express: names are one line without blanks around it (`Token`), the lines of an added
file end in LF and carry no CR before it, which the line reader would drop.
-/
import BetterCodex.PatchChunks
import BetterCodex.PatchStreaming

open RustStr List

namespace ApplyPatch

/-! ## The printer -/

/-- A chunk line behind its mark. -/
def ChunkLine.print : ChunkLine → Text
  | .context line => ' ' :: line
  | .removed line => '-' :: line
  | .added line => '+' :: line

/-- The line that opens a chunk. -/
def printChangeContext : Option Text → Text
  | none => emptyChangeContextMarker
  | some changeContext => changeContextMarker ++ changeContext

/-- The lines of a printed chunk. -/
def printChunk (c : UpdateFileChunk) : List Text :=
  printChangeContext c.changeContext :: (chunkLines c).map ChunkLine.print
    ++ (if c.isEndOfFile then [eofMarker] else [])

/-- The lines of a printed hunk. -/
def printHunk : Hunk → List Text
  | .addFile path contents =>
    (addFileMarker ++ path) :: (completeLines contents).map (fun line => '+' :: line)
  | .deleteFile path => [deleteFileMarker ++ path]
  | .updateFile path movePath chunks =>
    (updateFileMarker ++ path) :: (movePath.map (moveToMarker ++ ·)).toList
      ++ chunks.flatMap printChunk

/-- The text of a patch. -/
def printPatch (hunks : List Hunk) : Text :=
  joinLines (beginPatchMarker :: hunks.flatMap printHunk ++ [endPatchMarker])

/-! ## Well-formed hunks -/

/-- A name in a header line: not empty, on one line, without blanks around it. -/
structure Token (t : Text) : Prop where
  ne_nil : t ≠ []
  single_line : '\n' ∉ t
  trimmed : trim t = t

/-- A chunk that can be written down. -/
structure UpdateFileChunk.WellFormed (c : UpdateFileChunk) : Prop where
  consistent : c.Consistent
  has_lines : c.hasNoLines = false
  old_lines : ∀ line ∈ c.oldLines, '\n' ∉ line ∧ '\r' ∉ line
  new_lines : ∀ line ∈ c.newLines, '\n' ∉ line ∧ '\r' ∉ line
  header : ∀ changeContext ∈ c.changeContext, Token changeContext

/-- A hunk that can be written down. -/
def Hunk.WellFormed : Hunk → Prop
  | .addFile path contents =>
    Token path ∧ lastLine contents = []
      ∧ ∀ line ∈ completeLines contents, line.getLast? ≠ some '\r'
  | .deleteFile path => Token path
  | .updateFile path movePath chunks =>
    Token path ∧ (∀ target ∈ movePath, Token target) ∧ chunks ≠ [] ∧ ∀ c ∈ chunks, c.WellFormed

/-! ## The hunks of a run -/

/-- What an event does to the hunks. -/
def stepHunks (hunks : List Hunk) : LineEvent → List Hunk
  | .header (.addFile path) => hunks ++ [.addFile path []]
  | .header (.deleteFile path) => hunks ++ [.deleteFile path]
  | .header (.updateFile path) => hunks ++ [.updateFile path none []]
  | .fileLine line =>
    match hunks.getLast? with
    | some (.addFile path contents) =>
      hunks.dropLast ++ [.addFile path (contents ++ line ++ ['\n'])]
    | _ => hunks
  | .body b =>
    match hunks.getLast? with
    | some (.updateFile path movePath chunks) =>
      hunks.dropLast ++ [.updateFile path (b.perform movePath chunks).1
        (b.perform movePath chunks).2]
    | _ => hunks
  | _ => hunks

variable (p : StreamingPatchParser)

theorem hunks_perform (e : LineEvent) : (p.perform e).state.hunks = stepHunks p.state.hunks e := by
  cases e with
  | header h => cases h <;> rfl
  | fileLine line =>
    simp only [StreamingPatchParser.perform, stepHunks]
    cases p.state.hunks.getLast? with
    | none => rfl
    | some hunk => cases hunk <;> rfl
  | body b =>
    simp only [StreamingPatchParser.perform, stepHunks]
    cases p.state.hunks.getLast? with
    | none => rfl
    | some hunk => cases hunk <;> rfl
  | _ => rfl

variable (es : List LineEvent)

theorem hunks_foldl :
    (es.foldl StreamingPatchParser.performLine p).state.hunks = es.foldl stepHunks p.state.hunks := by
  induction es generalizing p with
  | nil => rfl
  | cons e es ih =>
    rw [foldl_cons, ih, foldl_cons]
    congr 1
    exact hunks_perform p.nextLine e

theorem hunks_performPatch :
    (performPatch es).state.hunks = es.foldl stepHunks [] := hunks_foldl {} es

/-! ## What a printed line is read as -/

theorem Token.trim_append {t : Text} (h : Token t) (marker : Text) {c : Char} {rest : Text}
    (hmarker : marker = c :: rest) (hc : isWhitespace c = false) :
    trim (marker ++ t) = marker ++ t ∧ trimEnd (marker ++ t) = marker ++ t := by
  obtain ⟨u, d, rfl, hd⟩ := exists_concat_of_trim_eq h.trimmed h.ne_nil
  refine ⟨trim_eq_self (c := c) (d := d) (by rw [hmarker]; rfl) (by simp) hc hd, ?_⟩
  unfold trimEnd
  rw [← append_assoc, rdropWhile_concat_neg _ _ _ (by simp [hd])]

/-- The phases in which a hunk header or the end marker may stand. -/
def Phase.takesHeader : Phase → Bool
  | .notStarted => false
  | .ended => false
  | phase => phase.closable

variable {phase : Phase} {line : Text}

/-- A printed header is read as one. -/
theorem classify_header (hphase : phase.takesHeader = true) (htrim : trim line = line)
    (htrimEnd : trimEnd line = line) {h : Header} (hread : readHeader line = some h)
    (henv : stripPrefix environmentIdMarker line = none) :
    classify phase line = some (.header h) := by
  cases phase with
  | notStarted => cases hphase
  | ended => cases hphase
  | preamble hasEnvironmentId => simp [classify, htrim, henv, hread]
  | addFile => simp [classify, htrim, hread]
  | deleteFile => simp [classify, htrim, hread]
  | updateFile moved chunk =>
    simp only [classify, htrimEnd, hread]
    exact if_pos hphase

variable {path : Text}

theorem classify_addFile (hphase : phase.takesHeader = true) (h : Token path) :
    classify phase (addFileMarker ++ path) = some (.header (.addFile path)) := by
  obtain ⟨h1, h2⟩ := h.trim_append addFileMarker rfl (by decide)
  refine classify_header hphase h1 h2 ?_ rfl
  unfold readHeader
  rw [if_neg (ne_of_stripPrefix_eq_none rfl), stripPrefix_append]

theorem classify_deleteFile (hphase : phase.takesHeader = true) (h : Token path) :
    classify phase (deleteFileMarker ++ path) = some (.header (.deleteFile path)) := by
  obtain ⟨h1, h2⟩ := h.trim_append deleteFileMarker rfl (by decide)
  refine classify_header hphase h1 h2 ?_ rfl
  unfold readHeader
  rw [if_neg (ne_of_stripPrefix_eq_none rfl), stripPrefix_append,
    show stripPrefix addFileMarker (deleteFileMarker ++ path) = none from rfl]

theorem classify_updateFile (hphase : phase.takesHeader = true) (h : Token path) :
    classify phase (updateFileMarker ++ path) = some (.header (.updateFile path)) := by
  obtain ⟨h1, h2⟩ := h.trim_append updateFileMarker rfl (by decide)
  refine classify_header hphase h1 h2 ?_ rfl
  unfold readHeader
  rw [if_neg (ne_of_stripPrefix_eq_none rfl), stripPrefix_append,
    show stripPrefix addFileMarker (updateFileMarker ++ path) = none from rfl,
    show stripPrefix deleteFileMarker (updateFileMarker ++ path) = none from rfl]
  rfl

theorem readHeader_cons_of_ne {c : Char} (hc : c ≠ '*') (t : Text) : readHeader (c :: t) = none := by
  have hend : c :: t ≠ endPatchMarker :=
    ne_of_stripPrefix_eq_none (stripPrefix_cons_of_ne hc _ t)
  unfold readHeader
  rw [if_neg hend,
    show stripPrefix addFileMarker (c :: t) = none from stripPrefix_cons_of_ne hc _ t,
    show stripPrefix deleteFileMarker (c :: t) = none from stripPrefix_cons_of_ne hc _ t,
    show stripPrefix updateFileMarker (c :: t) = none from stripPrefix_cons_of_ne hc _ t]
  rfl

/-- The lines of an added file are taken to the letter. -/
theorem classify_fileLine (line : Text) :
    classify .addFile ('+' :: line) = some (.fileLine line) := by
  have htrim : trim ('+' :: line) = '+' :: trimEnd line := by
    unfold trim
    rw [trimStart_cons (by decide), trimEnd_cons (by decide)]
  simp only [classify, htrim, readHeader_cons_of_ne (by decide : '+' ≠ '*')]

variable {chunk : ChunkPhase}

/-- A line that starts with neither `*` nor `@` is a data line. -/
theorem classify_data (hstar : ∀ t, trimEnd line ≠ '*' :: t) (hat : ∀ t, trimEnd line ≠ '@' :: t)
    (moved : Bool) (hchunk : chunk ≠ .closed) :
    classify (.updateFile moved chunk) line = (readData line).map .body := by
  have hprefix : ∀ (c : Char) (marker : Text), (∀ t, trimEnd line ≠ c :: t) →
      stripPrefix (c :: marker) (trimEnd line) = none := by
    intro c marker h
    cases hl : trimEnd line with
    | nil => rfl
    | cons d t =>
      refine stripPrefix_cons_of_ne ?_ marker t
      rintro rfl
      exact h t hl
  have hheader : readHeader (trimEnd line) = none := by
    cases hl : trimEnd line with
    | nil => rfl
    | cons d t =>
      refine readHeader_cons_of_ne ?_ t
      rintro rfl
      exact hstar t hl
  have hempty : trimEnd line ≠ emptyChangeContextMarker := hat _
  have heof : trimEnd line ≠ eofMarker := hstar _
  have hmove : stripPrefix moveToMarker (trimEnd line) = none := hprefix '*' _ hstar
  have hcontext : stripPrefix changeContextMarker (trimEnd line) = none := hprefix '@' _ hat
  have hmarker : isContextMarker (trimEnd line) = false := by
    simp [isContextMarker, hempty, startsWith_eq_isSome, hcontext]
  simp [classify, hheader, readBody, hchunk, hmove, hmarker, hempty, hcontext, heof]

/-- Chunk lines are taken to the letter, whatever they look like. -/
theorem classify_chunkLine (line : ChunkLine) (moved : Bool) (hchunk : chunk ≠ .closed) :
    classify (.updateFile moved chunk) line.print = some (.body line.toBody) := by
  have hmarked : ∀ (c : Char) (l : Text), isWhitespace c = false → c ≠ '*' → c ≠ '@' →
      (∀ t, trimEnd (c :: l) ≠ '*' :: t) ∧ (∀ t, trimEnd (c :: l) ≠ '@' :: t) := by
    intro c l hw hstar hat
    rw [trimEnd_cons hw]
    exact ⟨fun t h => hstar (List.cons.inj h).1, fun t h => hat (List.cons.inj h).1⟩
  cases line with
  | context l =>
    have hblank : ∀ (c : Char), c ≠ ' ' → ∀ t, trimEnd (' ' :: l) ≠ c :: t := by
      intro c hc t h
      obtain ⟨rest, hrest⟩ := trimEnd_isPrefix (' ' :: l)
      rw [h, cons_append] at hrest
      exact hc (List.cons.inj hrest).1
    exact classify_data (hblank '*' (by decide)) (hblank '@' (by decide)) moved hchunk
  | removed l =>
    obtain ⟨h1, h2⟩ := hmarked '-' l (by decide) (by decide) (by decide)
    exact classify_data h1 h2 moved hchunk
  | added l =>
    obtain ⟨h1, h2⟩ := hmarked '+' l (by decide) (by decide) (by decide)
    exact classify_data h1 h2 moved hchunk

theorem classify_moveTo {target : Text} (h : Token target) :
    classify (.updateFile false .none) (moveToMarker ++ target) = some (.body (.moveTo target)) := by
  obtain ⟨-, htrim⟩ := h.trim_append moveToMarker rfl (by decide)
  have hheader : readHeader (moveToMarker ++ target) = none := by
    unfold readHeader
    rw [if_neg (ne_of_stripPrefix_eq_none rfl)]
    rfl
  simp [classify, htrim, hheader, readBody]

/-- A printed `@@` line opens a chunk. -/
theorem classify_changeContext {changeContext : Option Text} (h : ∀ t ∈ changeContext, Token t)
    (moved : Bool) (hchunk : chunk ≠ .opened) :
    classify (.updateFile moved chunk) (printChangeContext changeContext)
      = some (.body (.openChunk changeContext)) := by
  have hat : ∀ t : Text, readHeader ('@' :: t) = none ∧ stripPrefix moveToMarker ('@' :: t) = none :=
    fun t => ⟨readHeader_cons_of_ne (by decide) t, stripPrefix_cons_of_ne (by decide) _ t⟩
  cases changeContext with
  | none =>
    have htrim : trimEnd emptyChangeContextMarker = emptyChangeContextMarker := by decide
    have hmarker : isContextMarker emptyChangeContextMarker = true := by decide
    have hne : emptyChangeContextMarker ≠ [] := by decide
    obtain ⟨h1, h2⟩ := hat "@".toList
    simp only [classify, printChangeContext, readBody, htrim]
    rw [show readHeader emptyChangeContextMarker = none from h1,
      show stripPrefix moveToMarker emptyChangeContextMarker = none from h2]
    simp [hmarker, hchunk, hne]
  | some t =>
    obtain ⟨-, htrim⟩ := (h t rfl).trim_append changeContextMarker rfl (by decide)
    have hmarker : isContextMarker (changeContextMarker ++ t) = true := by
      simp [isContextMarker, startsWith_eq_isSome]
    have hne : changeContextMarker ++ t ≠ [] := by simp [changeContextMarker]
    have hbare : changeContextMarker ++ t ≠ emptyChangeContextMarker := by
      intro heq
      have hlen := congrArg List.length heq
      rw [length_append] at hlen
      have h3 : changeContextMarker.length = 3 := rfl
      have h2 : emptyChangeContextMarker.length = 2 := rfl
      omega
    obtain ⟨h1, h2⟩ := hat ("@ ".toList ++ t)
    simp only [classify, printChangeContext, readBody, htrim]
    rw [show readHeader (changeContextMarker ++ t) = none from h1,
      show stripPrefix moveToMarker (changeContextMarker ++ t) = none from h2]
    simp [hmarker, hchunk, hne, hbare]

variable (moved : Bool)

theorem classify_eofMarker :
    classify (.updateFile moved .filled) eofMarker = some (.body .endOfFile) := by
  cases moved <;> decide

/-! ## What a printed patch is read as -/

/-- A run of the automaton with its last phase. -/
def Phase.Reads (phase : Phase) (ls : List Text) (es : List LineEvent) (phase' : Phase) : Prop :=
  phase.read ls = some es ∧ phase.afterAll es = phase'

theorem Phase.Reads.nil (phase : Phase) : phase.Reads [] [] phase := ⟨rfl, rfl⟩

theorem Phase.Reads.cons {phase' : Phase} {ls : List Text} {e : LineEvent} {es : List LineEvent}
    (he : classify phase line = some e) (hes : (phase.after e).Reads ls es phase') :
    phase.Reads (line :: ls) (e :: es) phase' := by
  obtain ⟨hread, hafter⟩ := hes
  exact ⟨by simp [Phase.read, he, hread], hafter⟩

theorem Phase.Reads.append {p q r : Phase} {ls ls' : List Text} {es es' : List LineEvent}
    (h : p.Reads ls es q) (h' : q.Reads ls' es' r) : p.Reads (ls ++ ls') (es ++ es') r := by
  induction ls generalizing p es with
  | nil =>
    obtain ⟨hread, hafter⟩ := h
    cases hread
    obtain rfl : p = q := hafter
    exact h'
  | cons line ls ih =>
    obtain ⟨hread, hafter⟩ := h
    obtain ⟨e, es₁, he, hes, rfl⟩ := Phase.read_cons_eq_some hread
    exact .cons he (ih ⟨hes, hafter⟩)

/-- The events of a chunk. -/
def chunkEvents (c : UpdateFileChunk) : List BodyLine :=
  .openChunk c.changeContext :: (chunkLines c).map ChunkLine.toBody
    ++ (if c.isEndOfFile then [.endOfFile] else [])

/-- The events of a hunk. -/
def hunkEvents : Hunk → List LineEvent
  | .addFile path contents =>
    .header (.addFile path) :: (completeLines contents).map .fileLine
  | .deleteFile path => [.header (.deleteFile path)]
  | .updateFile path movePath chunks =>
    .header (.updateFile path) ::
      ((movePath.map BodyLine.moveTo).toList ++ chunks.flatMap chunkEvents).map .body

theorem reads_fileLines (ls : List Text) :
    Phase.addFile.Reads (ls.map (fun line => '+' :: line)) (ls.map .fileLine) .addFile := by
  induction ls with
  | nil => exact .nil _
  | cons l ls ih => exact .cons (classify_fileLine l) ih

/-- The printed lines of a chunk are read back. -/
theorem reads_chunkLines (chunk : ChunkPhase) (hchunk : chunk ≠ .closed) (ls : List ChunkLine) :
    (Phase.updateFile moved chunk).Reads (ls.map ChunkLine.print)
      ((ls.map ChunkLine.toBody).map .body)
      (.updateFile moved (if ls = [] then chunk else .filled)) := by
  induction ls generalizing chunk with
  | nil => exact .nil _
  | cons l ls ih =>
    have hafter : (Phase.updateFile moved chunk).after (.body l.toBody)
        = .updateFile moved .filled := by
      cases l <;> rfl
    have hrest := ih .filled (by decide)
    rw [ite_self] at hrest
    rw [if_neg (by simp)]
    exact .cons (classify_chunkLine l moved hchunk) (by rw [hafter]; exact hrest)

variable {c : UpdateFileChunk}

theorem chunkLines_ne_nil (h : c.WellFormed) : chunkLines c ≠ [] := by
  intro hnil
  have hbuild := foldl_pushLine_chunkLines h.consistent c.changeContext
  rw [hnil, foldl_nil] at hbuild
  have hlines := h.has_lines
  have hempty : c.hasNoLines = true := by
    unfold UpdateFileChunk.hasNoLines
    rw [← (UpdateFileChunk.mk.inj hbuild).2.1, ← (UpdateFileChunk.mk.inj hbuild).2.2.1]
    rfl
  rw [hempty] at hlines
  cases hlines

/-- A printed chunk is read back. -/
theorem reads_chunk (h : c.WellFormed) (moved : Bool) (hchunk : chunk ≠ .opened) :
    (Phase.updateFile moved chunk).Reads (printChunk c) ((chunkEvents c).map .body)
      (.updateFile moved (if c.isEndOfFile then .closed else .filled)) := by
  have hopen := classify_changeContext h.header moved hchunk
  have hafter : (Phase.updateFile moved chunk).after (.body (.openChunk c.changeContext))
      = .updateFile moved .opened := rfl
  have hlines := reads_chunkLines moved .opened (by decide) (chunkLines c)
  rw [if_neg (chunkLines_ne_nil h)] at hlines
  unfold printChunk chunkEvents
  rw [map_append, map_cons]
  refine Phase.Reads.append (.cons hopen (by rw [hafter]; exact hlines)) ?_
  cases c.isEndOfFile with
  | false => exact .nil _
  | true => exact .cons (classify_eofMarker moved) (.nil _)

/-- The chunks of an update are read back, one after the other. -/
theorem reads_chunks {chunks : List UpdateFileChunk} (h : ∀ c ∈ chunks, c.WellFormed)
    (moved : Bool) (chunk : ChunkPhase) (hchunk : chunk ≠ .opened) :
    ∃ chunk', (Phase.updateFile moved chunk).Reads (chunks.flatMap printChunk)
        ((chunks.flatMap chunkEvents).map .body) (.updateFile moved chunk')
      ∧ chunk' ≠ .opened ∧ (chunk ≠ .none ∨ chunks ≠ [] → chunk' ≠ .none) := by
  induction chunks generalizing chunk with
  | nil => exact ⟨chunk, .nil _, hchunk, by simp⟩
  | cons c cs ih =>
    have hc := reads_chunk (h c (mem_cons_self ..)) moved hchunk
    have hne : (if c.isEndOfFile then ChunkPhase.closed else .filled) ≠ .opened
        ∧ (if c.isEndOfFile then ChunkPhase.closed else .filled) ≠ .none := by
      cases c.isEndOfFile <;> decide
    obtain ⟨chunk', hreads, hopened, hnone⟩ :=
      ih (fun c hc => h c (mem_cons_of_mem _ hc)) _ hne.1
    refine ⟨chunk', ?_, hopened, fun _ => hnone (.inl hne.2)⟩
    rw [flatMap_cons, flatMap_cons, map_append]
    exact hc.append hreads

variable {h : Hunk}

/-- **One hunk** is read as its events, wherever a header may stand. -/
theorem reads_hunk (hwf : h.WellFormed) (hphase : phase.takesHeader = true) :
    ∃ phase', phase.Reads (printHunk h) (hunkEvents h) phase' ∧ phase'.takesHeader = true := by
  cases h with
  | addFile path contents =>
    exact ⟨.addFile, .cons (classify_addFile hphase hwf.1) (reads_fileLines _), rfl⟩
  | deleteFile path =>
    exact ⟨.deleteFile, .cons (classify_deleteFile hphase hwf) (.nil _), rfl⟩
  | updateFile path movePath chunks =>
    obtain ⟨hpath, hmove, hne, hchunks⟩ := hwf
    obtain ⟨chunk', hreads, hopened, hnone⟩ :=
      reads_chunks hchunks movePath.isSome .none (by decide)
    refine ⟨.updateFile movePath.isSome chunk', ?_, ?_⟩
    · simp only [printHunk, hunkEvents, map_append, cons_append]
      refine .cons (classify_updateFile hphase hpath) ?_
      refine Phase.Reads.append ?_ hreads
      cases movePath with
      | none => exact .nil _
      | some target => exact .cons (classify_moveTo (hmove target rfl)) (.nil _)
    · have hnone' := hnone (.inr hne)
      cases chunk' <;> simp_all [Phase.takesHeader, Phase.closable]

variable {hunks : List Hunk}

/-- Printed hunks are read back one after the other. -/
theorem reads_hunks (hwf : ∀ h ∈ hunks, h.WellFormed) (phase : Phase)
    (hphase : phase.takesHeader = true) :
    ∃ phase', phase.Reads (hunks.flatMap printHunk) (hunks.flatMap hunkEvents) phase'
      ∧ phase'.takesHeader = true := by
  induction hunks generalizing phase with
  | nil => exact ⟨phase, .nil _, hphase⟩
  | cons h hs ih =>
    obtain ⟨p₁, h₁, ht₁⟩ := reads_hunk (hwf h (mem_cons_self ..)) hphase
    obtain ⟨p₂, h₂, ht₂⟩ := ih (fun h' hh => hwf h' (mem_cons_of_mem _ hh)) _ ht₁
    exact ⟨p₂, h₁.append h₂, ht₂⟩

/-! ## What the events of a printed patch build -/

variable (hs : List Hunk)

theorem foldl_stepHunks_fileLines (path contents : Text) (ls : List Text) :
    (ls.map LineEvent.fileLine).foldl stepHunks (hs ++ [.addFile path contents])
      = hs ++ [.addFile path (contents ++ ls.flatMap (· ++ ['\n']))] := by
  induction ls generalizing contents with
  | nil => simp
  | cons l ls ih =>
    have hstep : stepHunks (hs ++ [.addFile path contents]) (.fileLine l)
        = hs ++ [.addFile path (contents ++ l ++ ['\n'])] := by
      simp [stepHunks]
    rw [map_cons, foldl_cons, hstep, ih]
    simp

/-- Body lines, one after the other. -/
def performBody (s : Option Text × List UpdateFileChunk) (b : BodyLine) :
    Option Text × List UpdateFileChunk := b.perform s.1 s.2

theorem foldl_stepHunks_body (path : Text) (s : Option Text × List UpdateFileChunk)
    (bs : List BodyLine) :
    (bs.map LineEvent.body).foldl stepHunks (hs ++ [.updateFile path s.1 s.2])
      = hs ++ [.updateFile path (bs.foldl performBody s).1 (bs.foldl performBody s).2] := by
  induction bs generalizing s with
  | nil => rfl
  | cons b bs ih =>
    have hstep : stepHunks (hs ++ [.updateFile path s.1 s.2]) (.body b)
        = hs ++ [.updateFile path (performBody s b).1 (performBody s b).2] := by
      simp [stepHunks, performBody]
    rw [map_cons, foldl_cons, hstep, ih, foldl_cons]

variable (movePath : Option Text) (cs : List UpdateFileChunk)

theorem foldl_performBody_lines (c : UpdateFileChunk) (ls : List ChunkLine) :
    (ls.map ChunkLine.toBody).foldl performBody (movePath, cs ++ [c])
      = (movePath, cs ++ [ls.foldl UpdateFileChunk.pushLine c]) := by
  induction ls generalizing c with
  | nil => rfl
  | cons l ls ih =>
    have hstep : performBody (movePath, cs ++ [c]) l.toBody
        = (movePath, cs ++ [c.pushLine l]) := by
      cases l <;> simp [performBody, ChunkLine.toBody, BodyLine.perform, onLastChunk,
        UpdateFileChunk.pushLine]
    rw [map_cons, foldl_cons, hstep, ih, foldl_cons]

theorem foldl_performBody_chunk (h : c.WellFormed) :
    (chunkEvents c).foldl performBody (movePath, cs) = (movePath, cs ++ [c]) := by
  have hopen : performBody (movePath, cs) (.openChunk c.changeContext)
      = (movePath, cs ++ [{ changeContext := c.changeContext }]) := rfl
  unfold chunkEvents
  rw [foldl_append, foldl_cons, hopen, foldl_performBody_lines,
    foldl_pushLine_chunkLines h.consistent]
  obtain ⟨changeContext, oldLines, newLines, contexts, isEndOfFile⟩ := c
  cases isEndOfFile with
  | false => rfl
  | true => simp [performBody, BodyLine.perform, markEndOfFile]

theorem foldl_performBody_chunks {chunks : List UpdateFileChunk} (h : ∀ c ∈ chunks, c.WellFormed) :
    (chunks.flatMap chunkEvents).foldl performBody (movePath, cs) = (movePath, cs ++ chunks) := by
  induction chunks generalizing cs with
  | nil => simp
  | cons c chunks ih =>
    rw [flatMap_cons, foldl_append, foldl_performBody_chunk movePath cs (h c (mem_cons_self ..)),
      ih _ (fun c' hc => h c' (mem_cons_of_mem _ hc))]
    simp

/-- **One hunk** is built from its events. -/
theorem foldl_stepHunks_hunk (hwf : h.WellFormed) (hs : List Hunk) :
    (hunkEvents h).foldl stepHunks hs = hs ++ [h] := by
  cases h with
  | addFile path contents =>
    have hcontents := flatMap_completeLines contents
    rw [hwf.2.1, append_nil] at hcontents
    have hlines := foldl_stepHunks_fileLines hs path [] (completeLines contents)
    rw [hcontents, nil_append] at hlines
    exact hlines
  | deleteFile path => rfl
  | updateFile path movePath chunks =>
    have hbody := foldl_stepHunks_body hs path (none, [])
      ((movePath.map BodyLine.moveTo).toList ++ chunks.flatMap chunkEvents)
    have hmove : (movePath.map BodyLine.moveTo).toList.foldl performBody (none, [])
        = (movePath, []) := by
      cases movePath <;> rfl
    rw [foldl_append, hmove, foldl_performBody_chunks movePath [] hwf.2.2.2,
      nil_append] at hbody
    exact hbody

theorem foldl_stepHunks_hunks (hwf : ∀ h ∈ hunks, h.WellFormed) (hs : List Hunk) :
    (hunks.flatMap hunkEvents).foldl stepHunks hs = hs ++ hunks := by
  induction hunks generalizing hs with
  | nil => simp
  | cons h hunks ih =>
    rw [flatMap_cons, foldl_append, foldl_stepHunks_hunk (hwf h (mem_cons_self ..)),
      ih (fun h' hh => hwf h' (mem_cons_of_mem _ hh))]
    simp

/-! ## The lines of a printed patch -/

/-- A line that the line reader hands on as it is. -/
def Clean (line : Text) : Prop := '\n' ∉ line ∧ line.getLast? ≠ some '\r'

theorem Clean.stripCr (h : Clean line) : RustStr.stripCr line = line :=
  if_neg h.2

theorem Token.clean_append {t : Text} (h : Token t) {marker : Text} (hm : '\n' ∉ marker) :
    Clean (marker ++ t) := by
  obtain ⟨u, d, rfl, hd⟩ := exists_concat_of_trim_eq h.trimmed h.ne_nil
  refine ⟨?_, ?_⟩
  · rw [mem_append, not_or]
    exact ⟨hm, h.single_line⟩
  · rw [← append_assoc, getLast?_concat]
    rintro ⟨⟩
    exact absurd hd (by decide)

theorem clean_cons {c : Char} (hc : c ≠ '\n') (hc' : c ≠ '\r') (h : Clean line) :
    Clean (c :: line) := by
  refine ⟨?_, ?_⟩
  · rw [mem_cons, not_or]
    exact ⟨hc.symm, h.1⟩
  · rcases eq_nil_or_concat' line with rfl | ⟨u, d, rfl⟩
    · rw [getLast?_singleton]
      exact fun heq => hc' (Option.some.inj heq)
    · have hlast := h.2
      rw [getLast?_concat] at hlast
      rw [← cons_append, getLast?_concat]
      exact hlast

/-- What holds of the lines of both sides holds of the lines of a chunk. -/
theorem interleave_forall {P : Text → Prop} {old new : List Text} (hnil : P [])
    (hold : ∀ l ∈ old, P l) (hnew : ∀ l ∈ new, P l) (o n : ℕ) (contexts : List (ℕ × ℕ)) :
    ∀ line ∈ interleave old new o n contexts,
      match line with
      | .context l => P l
      | .removed l => P l
      | .added l => P l := by
  induction contexts generalizing o n with
  | nil =>
    intro line hline
    rcases mem_append.mp hline with h | h
    · obtain ⟨l, hl, rfl⟩ := mem_map.mp h
      exact hold l (mem_of_mem_drop hl)
    · obtain ⟨l, hl, rfl⟩ := mem_map.mp h
      exact hnew l (mem_of_mem_drop hl)
  | cons p contexts ih =>
    obtain ⟨i, j⟩ := p
    intro line hline
    rcases mem_append.mp hline with h | h
    · rcases mem_append.mp h with h | h
      · obtain ⟨l, hl, rfl⟩ := mem_map.mp h
        exact hold l (mem_of_mem_take (mem_of_mem_drop hl))
      · obtain ⟨l, hl, rfl⟩ := mem_map.mp h
        exact hnew l (mem_of_mem_take (mem_of_mem_drop hl))
    · rcases mem_cons.mp h with rfl | h
      · show P (old.getD i [])
        rw [getD_eq_getElem?_getD]
        cases hi : old[i]? with
        | none => exact hnil
        | some l => exact hold l (mem_of_getElem? hi)
      · exact ih (i + 1) (j + 1) line h

/-- The lines of a printed chunk are handed on as they are. -/
theorem clean_printChunk (h : c.WellFormed) : ∀ line ∈ printChunk c, Clean line := by
  have hside : ∀ l : Text, '\n' ∉ l ∧ '\r' ∉ l → Clean l :=
    fun l hl => ⟨hl.1, fun hlast => hl.2 (mem_of_getLast? hlast)⟩
  intro line hline
  rcases mem_append.mp hline with hline | hline
  · rcases mem_cons.mp hline with rfl | hline
    · cases hctx : c.changeContext with
      | none => exact ⟨by decide, by decide⟩
      | some t => exact (h.header t hctx).clean_append (by decide)
    · obtain ⟨cl, hcl, rfl⟩ := mem_map.mp hline
      have htext := interleave_forall (P := Clean) ⟨by decide, by decide⟩
        (fun l hl => hside l (h.old_lines l hl)) (fun l hl => hside l (h.new_lines l hl))
        0 0 c.contextLineIndices cl hcl
      cases cl with
      | context l => exact clean_cons (by decide) (by decide) htext
      | removed l => exact clean_cons (by decide) (by decide) htext
      | added l => exact clean_cons (by decide) (by decide) htext
  · cases heof : c.isEndOfFile with
    | false => rw [heof] at hline; cases hline
    | true =>
      rw [heof, if_pos rfl, mem_singleton] at hline
      rw [hline]
      exact ⟨by decide, by decide⟩

/-- The lines of a printed hunk are handed on as they are. -/
theorem clean_printHunk (hwf : h.WellFormed) : ∀ line ∈ printHunk h, Clean line := by
  intro line hline
  cases h with
  | addFile path contents =>
    obtain ⟨hpath, -, hlines⟩ := hwf
    rcases mem_cons.mp hline with rfl | hline
    · exact hpath.clean_append (by decide)
    · obtain ⟨l, hl, rfl⟩ := mem_map.mp hline
      exact clean_cons (by decide) (by decide) ⟨not_mem_completeLines hl, hlines l hl⟩
  | deleteFile path =>
    rw [mem_singleton.mp hline]
    exact Token.clean_append hwf (by decide)
  | updateFile path movePath chunks =>
    obtain ⟨hpath, hmove, -, hchunks⟩ := hwf
    rcases mem_cons.mp hline with rfl | hline
    · exact hpath.clean_append (by decide)
    · rcases mem_append.mp hline with hline | hline
      · obtain ⟨target, htarget, rfl⟩ := Option.map_eq_some_iff.mp (Option.mem_toList.mp hline)
        exact (hmove target htarget).clean_append (by decide)
      · obtain ⟨c, hc, hline⟩ := mem_flatMap.mp hline
        exact clean_printChunk (hchunks c hc) line hline

/-! ## The round trip -/

/-- The complete lines of a printed patch. -/
def printBody (hunks : List Hunk) : List Text := beginPatchMarker :: hunks.flatMap printHunk

theorem clean_printBody (hwf : ∀ h ∈ hunks, h.WellFormed) :
    ∀ line ∈ printBody hunks, Clean line := by
  intro line hline
  rcases mem_cons.mp hline with rfl | hline
  · exact ⟨by decide, by decide⟩
  · obtain ⟨h, hh, hline⟩ := mem_flatMap.mp hline
    exact clean_printHunk (hwf h hh) line hline

theorem printPatch_lines (hwf : ∀ h ∈ hunks, h.WellFormed) :
    completeLines (printPatch hunks) = printBody hunks
      ∧ lastLine (printPatch hunks) = endPatchMarker :=
  joinLines_concat (fun line hline => (clean_printBody hwf line hline).1) (by decide)

/-- A printed patch is trimmed and needs no heredoc. -/
theorem printPatch_trimmed (hwf : ∀ h ∈ hunks, h.WellFormed) :
    trim (printPatch hunks) = printPatch hunks ∧ isWrapped (printPatch hunks) = false := by
  obtain ⟨hlines, hlast⟩ := printPatch_lines hwf
  constructor
  · have htext := (flatMap_completeLines (printPatch hunks)).symm
    rw [hlines, hlast] at htext
    refine trim_eq_self (c := '*') (d := 'h') ?_ ?_ (by decide) (by decide)
    · rw [htext]
      rfl
    · rw [htext, getLast?_append]
      rfl
  · have hfirst : (lines (printPatch hunks)).head? = some beginPatchMarker := by
      unfold lines
      rw [hlines]
      rfl
    unfold isWrapped isHeredoc
    rw [hfirst]
    rfl

theorem readPatch_printBody (hwf : ∀ h ∈ hunks, h.WellFormed) :
    readPatch (printBody hunks) endPatchMarker = some (.begin :: hunks.flatMap hunkEvents) := by
  obtain ⟨phase, hreads, hphase⟩ := reads_hunks hwf (.preamble false) rfl
  have hbegin : Phase.notStarted.Reads (printBody hunks) (.begin :: hunks.flatMap hunkEvents) phase :=
    .cons (by decide) hreads
  refine readPatch_eq_some.mpr ⟨by decide, hbegin.1, ?_⟩
  rw [hbegin.2]
  cases phase <;> simp_all [Phase.takesHeader]

/-- **Round trip.**  Well-formed hunks come back from their printed patch, also when
their lines look like markers of the patch format. -/
theorem parsePatch_printPatch (hunks : List Hunk) (hwf : ∀ h ∈ hunks, h.WellFormed) :
    (parsePatch (printPatch hunks)).map (·.hunks) = .ok hunks := by
  obtain ⟨htrim, hwrap⟩ := printPatch_trimmed hwf
  obtain ⟨hlines, hlast⟩ := printPatch_lines hwf
  have hne : printPatch hunks ≠ [] := by
    intro hnil
    rw [hnil] at hlines
    cases hlines
  have hclean : (printBody hunks).map (stripCr ∘ stripCr) = printBody hunks := by
    refine (map_congr_left ?_).trans (map_id _)
    intro line hline
    have hstrip := (clean_printBody hwf line hline).stripCr
    simp [hstrip]
  have hbatch := batchOutcome_eq_readPatch htrim hne hwrap (by rw [hlines]; simp [printBody])
  rw [hlines, hlast, hclean, readPatch_printBody hwf, Option.map_some] at hbatch
  obtain ⟨args, hargs, hout⟩ := Option.map_eq_some_iff.mp hbatch
  have hhunks : args.hunks = hunks := by
    refine (congrArg Prod.fst hout).trans ?_
    refine (hunks_performPatch _).trans ?_
    exact foldl_stepHunks_hunks hwf []
  cases hparse : parsePatch (printPatch hunks) with
  | error e => rw [hparse] at hargs; cases hargs
  | ok args' =>
    rw [hparse] at hargs
    obtain rfl : args' = args := Option.some.inj hargs
    exact congrArg Except.ok hhunks

/-- An added line and a context line that look like markers. -/
def markerLikeHunks : List Hunk :=
  [.addFile "a".toList "*** End Patch\n@@\n".toList,
    .updateFile "b".toList (some "c d".toList)
      [{ changeContext := some "*** End of File".toList, oldLines := ["*** End Patch".toList, []]
         newLines := ["*** End Patch".toList, "@@".toList], contextLineIndices := [(0, 0)]
         isEndOfFile := true }]]

theorem parsePatch_printPatch_markerLikeHunks :
    (parsePatch (printPatch markerLikeHunks)).map (·.hunks) = .ok markerLikeHunks := by
  refine parsePatch_printPatch markerLikeHunks ?_
  have htoken : Token "a".toList ∧ Token "b".toList ∧ Token "c d".toList
      ∧ Token "*** End of File".toList := by
    refine ⟨?_, ?_, ?_, ?_⟩ <;> exact ⟨by decide, by decide, by decide⟩
  obtain ⟨ha, hb, hc, hd⟩ := htoken
  intro h hh
  rcases mem_cons.mp hh with rfl | hh
  · exact ⟨ha, by decide, by decide⟩
  · rw [mem_singleton.mp hh]
    refine ⟨hb, ?_, by decide, ?_⟩
    · rintro target ⟨⟩
      exact hc
    · intro c hmem
      rw [mem_singleton.mp hmem]
      refine ⟨?_, by decide, by decide, by decide, ?_⟩
      · exact ⟨by decide, by decide, ⟨_, rfl, rfl⟩, by decide, by decide⟩
      · rintro header ⟨⟩
        exact hd

/-- A CR at the end of an added line is read as part of the line ending and lost. -/
theorem parsePatch_printPatch_crlf :
    Token "a".toList ∧ lastLine "x\r\n".toList = []
      ∧ (parsePatch (printPatch [.addFile "a".toList "x\r\n".toList])).map (·.hunks)
        = .ok [.addFile "a".toList "x\n".toList]
      ∧ [Hunk.addFile "a".toList "x\n".toList] ≠ [.addFile "a".toList "x\r\n".toList] :=
  ⟨⟨by decide, by decide, by decide⟩, by decide, by decide, by decide⟩

end ApplyPatch
