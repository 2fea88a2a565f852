/-
# The finite automaton behind the patch line machine

`StreamingPatchParser.processLine` mixes three things: which lines may stand at
the current place, what kind of line the text is, and what the line does to the
hunks read so far.  This file takes them apart: a `Phase` is what the machine remembers
about the place in the patch, `classify` reads a line as a `LineEvent`, and `perform` is what
the event does to the parser.

The bridge is `processLine_toOption`: in a state that satisfies `Inv` (every
reachable one does), the machine accepts a line exactly when
`classify` does, and then performs its event.
-/
import BetterCodex.PatchParser

open RustStr

namespace ApplyPatch

open UpdateFileChunk Option

/-! ## Phases and events -/

/-- What is known of the last chunk of an update hunk: there is none, it has no
line yet, it has lines, or it has lines and its end-of-file marker. -/
inductive ChunkPhase where
  | none
  | opened
  | filled
  | closed
  deriving DecidableEq, Repr

/-- The place in the patch. -/
inductive Phase where
  | notStarted
  | preamble (hasEnvironmentId : Bool)
  | addFile
  | deleteFile
  | updateFile (moved : Bool) (chunk : ChunkPhase)
  | ended
  deriving DecidableEq, Repr

/-- The lines that end a hunk. -/
inductive Header where
  | endPatch
  | addFile (path : Text)
  | deleteFile (path : Text)
  | updateFile (path : Text)
  deriving DecidableEq, Repr

/-- The lines of an update hunk. -/
inductive BodyLine where
  | skip
  | moveTo (path : Text)
  | openChunk (changeContext : Option Text)
  | endOfFile
  | context (line : Text)
  | added (line : Text)
  | removed (line : Text)
  deriving DecidableEq, Repr

/-- What a line of a patch can be. -/
inductive LineEvent where
  | begin
  | environment (environmentId : Text)
  | header (h : Header)
  | fileLine (line : Text)
  | body (b : BodyLine)
  | blank
  deriving DecidableEq, Repr

/-! ## Reading a line in a phase -/

/-- The header a line spells, if any. -/
def readHeader (trimmed : Text) : Option Header :=
  if trimmed = endPatchMarker then some .endPatch
  else
    match stripPrefix addFileMarker trimmed with
    | some path => some (.addFile path)
    | none =>
      match stripPrefix deleteFileMarker trimmed with
      | some path => some (.deleteFile path)
      | none => (stripPrefix updateFileMarker trimmed).map .updateFile

/-- The data lines of an update hunk, by their first character. -/
def readData : Text → Option BodyLine
  | [] => some (.context [])
  | ' ' :: line => some (.context line)
  | '+' :: line => some (.added line)
  | '-' :: line => some (.removed line)
  | _ :: _ => none

/-- A line of an update hunk that is no header. -/
def readBody (moved : Bool) (chunk : ChunkPhase) (line : Text) : Option BodyLine :=
  let updateLine := trimEnd line
  if chunk = .closed ∧ updateLine = [] then some .skip
  else if chunk = .closed ∧ isContextMarker updateLine = false then none
  else
    match (if chunk = .none ∧ moved = false then stripPrefix moveToMarker updateLine
      else none) with
    | some path => some (.moveTo path)
    | none =>
      if isContextMarker updateLine = true ∧ chunk = .opened then none
      else if updateLine = emptyChangeContextMarker then some (.openChunk none)
      else
        match stripPrefix changeContextMarker updateLine with
        | some changeContext => some (.openChunk (some changeContext))
        | none =>
          if updateLine = eofMarker then
            if chunk = .opened then none else some .endOfFile
          else readData line

/-- The hunk being read may be ended here: an update hunk needs a chunk, and its
last chunk a line. -/
def Phase.closable : Phase → Bool
  | .updateFile _ .none => false
  | .updateFile _ .opened => false
  | _ => true

open Phase

/-- Read a line in a phase; `none` is an error of the parser. -/
def classify (phase : Phase) (line : Text) : Option LineEvent :=
  match phase with
  | .notStarted => if trim line = beginPatchMarker then some .begin else none
  | .preamble hasEnvironmentId =>
    match stripPrefix environmentIdMarker (trim line) with
    | some environmentId =>
      if hasEnvironmentId ∨ trim environmentId = [] then none
      else some (.environment (trim environmentId))
    | none => (readHeader (trim line)).map .header
  | .addFile =>
    match readHeader (trim line), line with
    | some h, _ => some (.header h)
    | none, '+' :: lineToAdd => some (.fileLine lineToAdd)
    | none, _ => none
  | .deleteFile => (readHeader (trim line)).map .header
  | .updateFile moved chunk =>
    match readHeader (trimEnd line) with
    | some h => if (updateFile moved chunk).closable then some (.header h) else none
    | none => (readBody moved chunk line).map .body
  | .ended => if trim line = [] then some .blank else none

/-! ## What an event does -/

/-- The phase after a header. -/
def Header.phase : Header → Phase
  | .endPatch => .ended
  | .addFile _ => .addFile
  | .deleteFile _ => .deleteFile
  | .updateFile _ => .updateFile false .none

/-- The phase after an event. -/
def Phase.after : Phase → LineEvent → Phase
  | _, .begin => .preamble false
  | _, .environment _ => .preamble true
  | _, .header h => h.phase
  | phase, .fileLine _ => phase
  | .updateFile _ chunk, .body (.moveTo _) => .updateFile true chunk
  | .updateFile moved _, .body (.openChunk _) => .updateFile moved .opened
  | .updateFile moved .none, .body .endOfFile => .updateFile moved .none
  | .updateFile moved _, .body .endOfFile => .updateFile moved .closed
  | .updateFile moved _, .body (.context _) => .updateFile moved .filled
  | .updateFile moved _, .body (.added _) => .updateFile moved .filled
  | .updateFile moved _, .body (.removed _) => .updateFile moved .filled
  | phase, _ => phase

/-- The body lines that `readBody` can return for a chunk in this phase. -/
def BodyLine.Allowed (moved : Bool) (chunk : ChunkPhase) : BodyLine → Prop
  | .skip => chunk = .closed
  | .moveTo _ => chunk = .none ∧ moved = false
  | .openChunk _ => chunk ≠ .opened
  | .endOfFile => chunk = .none ∨ chunk = .filled
  | .context _ => chunk ≠ .closed
  | .added _ => chunk ≠ .closed
  | .removed _ => chunk ≠ .closed

/-- The events that `classify` can return in a phase. -/
def Phase.Allows : Phase → LineEvent → Prop
  | .notStarted, .begin => True
  | .preamble hasEnvironmentId, .environment _ => hasEnvironmentId = false
  | .addFile, .fileLine _ => True
  | .updateFile moved chunk, .body b => b.Allowed moved chunk
  | .preamble _, .header _ => True
  | .addFile, .header _ => True
  | .deleteFile, .header _ => True
  | .updateFile moved chunk, .header _ => (updateFile moved chunk).closable = true
  | .ended, .blank => True
  | _, _ => False

/-- The effect of a body line on the move path and the chunks. -/
def BodyLine.perform (movePath : Option Text) (chunks : List UpdateFileChunk) :
    BodyLine → Option Text × List UpdateFileChunk
  | .skip => (movePath, chunks)
  | .moveTo path => (some path, chunks)
  | .openChunk changeContext => (movePath, chunks ++ [{ changeContext := changeContext }])
  | .endOfFile => (movePath, markEndOfFile chunks)
  | .context line => (movePath, onLastChunk (·.pushContextLine line) chunks)
  | .added line => (movePath, onLastChunk (·.pushNewLine line) chunks)
  | .removed line => (movePath, onLastChunk (·.pushOldLine line) chunks)

namespace StreamingPatchParser

/-- The effect of a header. -/
def enter (p : StreamingPatchParser) : Header → StreamingPatchParser
  | .endPatch => p.setMode .endedPatch
  | .addFile path => p.pushHunk (.addFile path []) .addFile
  | .deleteFile path => p.pushHunk (.deleteFile path) .deleteFile
  | .updateFile path => p.pushHunk (.updateFile path none []) (.updateFile p.lineNumber)

/-- The effect of an event. -/
def perform (p : StreamingPatchParser) : LineEvent → StreamingPatchParser
  | .begin => p.setMode .startedPatch
  | .environment environmentId =>
    { p with state := { p.state with environmentId := some environmentId } }
  | .header h => p.enter h
  | .fileLine line =>
    match p.state.hunks.getLast? with
    | some (.addFile path contents) =>
      p.setLastHunk (.addFile path (contents ++ line ++ ['\n']))
    | _ => p
  | .body b =>
    match p.state.hunks.getLast? with
    | some (.updateFile path movePath chunks) =>
      p.setLastHunk (.updateFile path (b.perform movePath chunks).1
        (b.perform movePath chunks).2)
    | _ => p
  | .blank => p

end StreamingPatchParser

/-! ## Which events a phase allows -/

variable {line : Text} {b : BodyLine}

theorem readData_allowed {moved : Bool} {chunk : ChunkPhase} (hchunk : chunk ≠ .closed)
    (h : readData line = some b) : b.Allowed moved chunk := by
  unfold readData at h
  split at h <;> cases h <;> exact hchunk

/-- Only lines that the phase allows are read. -/
theorem readBody_allowed {moved : Bool} {chunk : ChunkPhase}
    (h : readBody moved chunk line = some b) : b.Allowed moved chunk := by
  unfold readBody at h
  by_cases hskip : chunk = .closed ∧ trimEnd line = []
  · rw [if_pos hskip] at h
    cases h
    exact hskip.1
  rw [if_neg hskip] at h
  by_cases hafter : chunk = .closed ∧ isContextMarker (trimEnd line) = false
  · rw [if_pos hafter] at h
    cases h
  rw [if_neg hafter] at h
  split at h
  · next path hmove =>
      split_ifs at hmove with hfresh
      cases h
      exact hfresh
  by_cases hopened : isContextMarker (trimEnd line) = true ∧ chunk = .opened
  · rw [if_pos hopened] at h
    cases h
  rw [if_neg hopened] at h
  by_cases hempty : trimEnd line = emptyChangeContextMarker
  · rw [if_pos hempty] at h
    cases h
    exact fun hc => hopened ⟨by simp [isContextMarker, hempty], hc⟩
  rw [if_neg hempty] at h
  have hmarker : isContextMarker (trimEnd line)
      = (stripPrefix changeContextMarker (trimEnd line)).isSome := by
    simp [isContextMarker, hempty, startsWith_eq_isSome]
  cases hctx : stripPrefix changeContextMarker (trimEnd line) with
  | some changeContext =>
    rw [hctx] at h hmarker
    cases h
    exact fun hc => hopened ⟨hmarker, hc⟩
  | none =>
    -- a closed chunk only takes another marker
    rw [hctx] at h hmarker
    have hclosed : chunk ≠ .closed := fun hc => hafter ⟨hc, hmarker⟩
    split_ifs at h with heof hnoLines
    · cases h
      cases chunk <;> simp_all [BodyLine.Allowed]
    · exact readData_allowed hclosed h

/-- Only events that the phase allows are read. -/
theorem classify_allows {phase : Phase} {e : LineEvent} (h : classify phase line = some e) :
    phase.Allows e := by
  cases phase with
  | notStarted =>
    simp only [classify] at h
    split_ifs at h
    cases h
    trivial
  | preamble hasEnvironmentId =>
    simp only [classify] at h
    split at h
    · split_ifs at h with hid
      cases h
      simp only [not_or, Bool.not_eq_true] at hid
      exact hid.1
    · obtain ⟨header, -, rfl⟩ := map_eq_some_iff.mp h
      trivial
  | addFile =>
    simp only [classify] at h
    split at h <;> cases h <;> trivial
  | deleteFile =>
    obtain ⟨header, -, rfl⟩ := map_eq_some_iff.mp h
    trivial
  | updateFile moved chunk =>
    simp only [classify] at h
    split at h
    · split_ifs at h with hclosable
      cases h
      exact hclosable
    · obtain ⟨b, hb, rfl⟩ := map_eq_some_iff.mp h
      exact readBody_allowed hb
  | ended =>
    simp only [classify] at h
    split_ifs at h
    cases h
    trivial

/-! ## The phase of a parser, and its invariant -/

/-- The phase of the chunks read so far. -/
def chunkPhase (chunks : List UpdateFileChunk) : ChunkPhase :=
  match chunks.getLast? with
  | none => .none
  | some chunk =>
    if chunk.hasNoLines then .opened else if chunk.isEndOfFile then .closed else .filled

/-- The phase of a parser. -/
def phaseOf (p : StreamingPatchParser) : Phase :=
  match p.state.mode, p.state.hunks.getLast? with
  | .notStarted, _ => .notStarted
  | .startedPatch, _ => .preamble p.state.environmentId.isSome
  | .addFile, _ => .addFile
  | .deleteFile, _ => .deleteFile
  | .updateFile _, some (.updateFile _ movePath chunks) =>
    .updateFile movePath.isSome (chunkPhase chunks)
  | .updateFile _, _ => .updateFile false .none
  | .endedPatch, _ => .ended

/-- An end-of-file marker only ever closes a chunk with lines. -/
def MarkedChunksHaveLines (chunks : List UpdateFileChunk) : Prop :=
  ∀ chunk, chunks.getLast? = some chunk → chunk.isEndOfFile = true → chunk.hasNoLines = false

/-- The invariant of the machine: the mode agrees with the last hunk. -/
def Inv (p : StreamingPatchParser) : Prop :=
  match p.state.mode, p.state.hunks.getLast? with
  | .notStarted, last => last = none ∧ p.state.environmentId = none
  | .startedPatch, last => last = none
  | .addFile, last => ∃ path contents, last = some (.addFile path contents)
  | .deleteFile, last => ∃ path, last = some (.deleteFile path)
  | .updateFile _, last =>
    ∃ path movePath chunks, last = some (.updateFile path movePath chunks)
      ∧ MarkedChunksHaveLines chunks
  | .endedPatch, last =>
    ∀ path movePath chunks, last = some (.updateFile path movePath chunks) →
      ∃ chunk, chunks.getLast? = some chunk ∧ chunk.hasNoLines = false

/-! ## The machine performs what `classify` reads -/

variable {chunks : List UpdateFileChunk}

theorem lastIsEndOfFile_eq (h : MarkedChunksHaveLines chunks) :
    lastIsEndOfFile chunks = decide (chunkPhase chunks = .closed) := by
  unfold lastIsEndOfFile chunkPhase
  cases hl : chunks.getLast? with
  | none => rfl
  | some chunk =>
    have hc := h chunk hl
    cases he : chunk.isEndOfFile <;> cases hn : chunk.hasNoLines <;> simp_all

theorem lastHasNoLines_eq (chunks : List UpdateFileChunk) :
    lastHasNoLines chunks = decide (chunkPhase chunks = .opened) := by
  unfold lastHasNoLines chunkPhase
  cases chunks.getLast? with
  | none => rfl
  | some chunk =>
    cases he : chunk.isEndOfFile <;> cases hn : chunk.hasNoLines <;> simp_all

theorem isEmpty_eq_chunkPhase (chunks : List UpdateFileChunk) :
    chunks.isEmpty = decide (chunkPhase chunks = .none) := by
  unfold chunkPhase
  cases hl : chunks.getLast? with
  | none => simp_all
  | some chunk =>
    have hne : chunks ≠ [] := by rintro rfl; simp at hl
    cases he : chunk.isEndOfFile <;> cases hn : chunk.hasNoLines <;> simp_all

theorem dataLine_toOption (n : ℕ) (line : Text) (movePath : Option Text)
    (chunks : List UpdateFileChunk) : (dataLine n line movePath chunks).toOption
      = (readData line).map (·.perform movePath chunks) := by
  unfold dataLine
  split
  · rfl
  · rfl
  · rfl
  · rfl
  · next c cs h1 h2 h3 =>
      have hnone : readData (c :: cs) = none := by
        unfold readData
        split <;> simp_all
      rw [hnone]
      split <;> rfl

/-- **Update lines.**  The body of an update hunk is read by `readBody`. -/
theorem updateFileLine_toOption (n : ℕ) (line : Text) (movePath : Option Text)
    (h : MarkedChunksHaveLines chunks) :
    (updateFileLine n line movePath chunks).toOption
      = (readBody movePath.isSome (chunkPhase chunks) line).map
          (·.perform movePath chunks) := by
  have hm : movePath.isNone = !movePath.isSome := by cases movePath <;> rfl
  unfold updateFileLine readBody
  simp only [lastIsEndOfFile_eq h, lastHasNoLines_eq, isEmpty_eq_chunkPhase, hm,
    Bool.and_eq_true, decide_eq_true_eq, Bool.not_eq_true', List.isEmpty_iff]
  split_ifs with h1 h2
  · rfl
  · rfl
  all_goals
    cases stripPrefix moveToMarker (trimEnd line) <;>
      cases stripPrefix changeContextMarker (trimEnd line) <;>
      first
      | rfl
      | exact dataLine_toOption n line movePath chunks

namespace StreamingPatchParser

variable {p : StreamingPatchParser}

/-- The check for an empty update, as a property of the phase. -/
theorem ensureUpdateHunkIsNotEmpty_toOption (hp : Inv p) (line : Text) :
    (p.ensureUpdateHunkIsNotEmpty line).toOption
      = if (phaseOf p).closable then some () else none := by
  unfold Inv at hp
  unfold ensureUpdateHunkIsNotEmpty phaseOf
  cases hmode : p.state.mode with
  | notStarted => simp only [hmode] at hp; simp [hp, closable, Except.toOption]
  | startedPatch => simp only [hmode] at hp; simp [hp, closable, Except.toOption]
  | addFile =>
    simp only [hmode] at hp
    obtain ⟨path, contents, hlast⟩ := hp
    simp [hlast, closable, Except.toOption]
  | deleteFile =>
    simp only [hmode] at hp
    obtain ⟨path, hlast⟩ := hp
    simp [hlast, closable, Except.toOption]
  | updateFile k =>
    simp only [hmode] at hp
    obtain ⟨path, movePath, chunks, hlast, hmarked⟩ := hp
    simp only [hlast, chunkPhase]
    cases hc : chunks.getLast? with
    | none => simp [closable, Except.toOption]
    | some chunk =>
      cases hn : chunk.hasNoLines with
      | true =>
        by_cases hl : line = endPatchMarker <;>
          simp [hn, hl, closable, Except.toOption]
      | false =>
        cases he : chunk.isEndOfFile <;>
          simp [hn, he, closable, Except.toOption]
  | endedPatch =>
    simp only [hmode] at hp
    cases hlast : p.state.hunks.getLast? with
    | none => simp [closable, Except.toOption]
    | some hunk =>
      cases hunk with
      | addFile path contents => simp [closable, Except.toOption]
      | deleteFile path => simp [closable, Except.toOption]
      | updateFile path movePath chunks =>
        obtain ⟨chunk, hc, hn⟩ := hp path movePath chunks hlast
        simp [hc, hn, closable, Except.toOption]

/-- **Headers.**  Outside the environment line, the header part of the machine is
`readHeader`, guarded by the check on the hunk being ended. -/
theorem handleHunkHeadersAndEndPatch_eq {trimmed : Text}
    (h : p.preambleEnvironmentId trimmed = none) :
    p.handleHunkHeadersAndEndPatch trimmed
      = match readHeader trimmed with
        | none => .ok none
        | some header =>
          (p.ensureUpdateHunkIsNotEmpty trimmed).map (fun _ => some (p.enter header)) := by
  unfold handleHunkHeadersAndEndPatch readHeader
  rw [h]
  dsimp only
  split_ifs with hend
  · rfl
  · cases stripPrefix addFileMarker trimmed with
    | some path => rfl
    | none =>
      cases stripPrefix deleteFileMarker trimmed with
      | some path => rfl
      | none => cases stripPrefix updateFileMarker trimmed <;> rfl

/-- The header part of a line, with what its mode makes of any other line. -/
theorem orHeader_toOption (hp : Inv p) {trimmed : Text} (h : p.preambleEnvironmentId trimmed = none)
    (rest : Except ParseError StreamingPatchParser) :
    (p.orHeader trimmed rest).toOption
      = match readHeader trimmed with
        | some header => if (phaseOf p).closable then some (p.enter header) else none
        | none => rest.toOption := by
  unfold orHeader
  rw [handleHunkHeadersAndEndPatch_eq h]
  cases readHeader trimmed with
  | none => rfl
  | some header =>
    have he := ensureUpdateHunkIsNotEmpty_toOption hp trimmed
    cases hc : p.ensureUpdateHunkIsNotEmpty trimmed <;> rw [hc] at he <;>
      simp_all [Except.toOption, Except.map]

/-- The preamble: the environment line, or a header. -/
theorem processLine_toOption_preamble (hp : Inv p) (hmode : p.state.mode = .startedPatch)
    (line : Text) : (p.processLine line).toOption = (classify (phaseOf p) line).map p.perform := by
  have hphase : phaseOf p = .preamble p.state.environmentId.isSome := by simp [phaseOf, hmode]
  simp only [processLine, hmode, hphase, classify]
  cases henv : stripPrefix environmentIdMarker (trim line) with
  | some environmentId =>
    have hpre : p.preambleEnvironmentId (trim line) = some environmentId := by
      simp [preambleEnvironmentId, hmode, henv]
    unfold orHeader handleHunkHeadersAndEndPatch
    rw [hpre]
    by_cases hid : p.state.environmentId.isSome = true
    · simp [hid, Except.toOption]
    · by_cases hempty : trim environmentId = []
      · simp [hid, hempty, Except.toOption]
      · simp [hid, hempty, Except.toOption, perform]
  | none =>
    have hpre : p.preambleEnvironmentId (trim line) = none := by
      simp [preambleEnvironmentId, henv]
    rw [orHeader_toOption hp hpre, hphase]
    cases readHeader (trim line) <;> rfl

/-- **The machine performs what `classify` reads.** -/
theorem processLine_toOption (hp : Inv p) (line : Text) :
    (p.processLine line).toOption = (classify (phaseOf p) line).map p.perform := by
  have henv : p.state.mode ≠ .startedPatch → ∀ t, p.preambleEnvironmentId t = none :=
    fun hm t => if_neg hm
  have hinv := hp
  unfold Inv at hinv
  cases hmode : p.state.mode with
  | notStarted =>
    simp only [processLine, phaseOf, hmode, classify]
    split_ifs <;> rfl
  | startedPatch => exact processLine_toOption_preamble hp hmode line
  | addFile =>
    simp only [hmode] at hinv
    obtain ⟨path, contents, hlast⟩ := hinv
    have hphase : phaseOf p = .addFile := by simp [phaseOf, hmode]
    simp only [processLine, hmode]
    rw [orHeader_toOption hp (henv (by simp [hmode]) _), hphase, hlast]
    unfold classify
    cases readHeader (trim line) with
    | some header => rfl
    | none =>
      rcases line with _ | ⟨c, cs⟩
      · rfl
      · by_cases hc : c = '+'
        · subst hc
          simp [perform, hlast, Except.toOption]
        · simp [hc, invalidHunkHeader, Except.toOption]
  | deleteFile =>
    have hphase : phaseOf p = .deleteFile := by simp [phaseOf, hmode]
    simp only [processLine, hmode]
    rw [orHeader_toOption hp (henv (by simp [hmode]) _), hphase]
    unfold classify
    cases readHeader (trim line) <;> rfl
  | updateFile k =>
    simp only [hmode] at hinv
    obtain ⟨path, movePath, chunks, hlast, hmarked⟩ := hinv
    have hphase : phaseOf p = .updateFile movePath.isSome (chunkPhase chunks) := by
      simp [phaseOf, hmode, hlast]
    simp only [processLine, hmode]
    rw [orHeader_toOption hp (henv (by simp [hmode]) _), hphase, hlast]
    unfold classify
    cases readHeader (trimEnd line) with
    | some header =>
      dsimp only
      split_ifs <;> rfl
    | none =>
      have hbody := updateFileLine_toOption p.lineNumber line movePath hmarked
      cases hu : updateFileLine p.lineNumber line movePath chunks <;>
        cases hr : readBody movePath.isSome (chunkPhase chunks) line <;>
        simp_all [Except.toOption, Except.map, perform]
  | endedPatch =>
    simp only [processLine, phaseOf, hmode, classify]
    split_ifs <;> rfl

end StreamingPatchParser

/-! ## One step of the machine -/

theorem onLastChunk_eq_concat (f : UpdateFileChunk → UpdateFileChunk)
    (chunks : List UpdateFileChunk) :
    onLastChunk f chunks = chunks.dropLast ++ [f (chunks.getLast?.getD {})] := by
  unfold onLastChunk
  cases h : chunks.getLast? with
  | none => rw [List.getLast?_eq_none_iff.mp h]; rfl
  | some chunk => rfl

theorem chunkPhase_concat (chunks : List UpdateFileChunk) (c : UpdateFileChunk) :
    chunkPhase (chunks ++ [c])
      = if c.hasNoLines then .opened else if c.isEndOfFile then .closed else .filled := by
  simp [chunkPhase]

/-- The chunk a data line goes to is not yet closed. -/
theorem getLast_not_closed (h : MarkedChunksHaveLines chunks)
    (hphase : chunkPhase chunks ≠ .closed) : (chunks.getLast?.getD {}).isEndOfFile = false := by
  have hlast := lastIsEndOfFile_eq h
  rw [decide_eq_false hphase] at hlast
  unfold lastIsEndOfFile at hlast
  cases hl : chunks.getLast? with
  | none => rfl
  | some chunk => simpa [hl] using hlast

/-- A data line, of whatever kind, leaves a chunk with lines and without marker. -/
theorem onLastChunk_spec {f : UpdateFileChunk → UpdateFileChunk}
    (hlines : ∀ c, (f c).hasNoLines = false) (heof : ∀ c, (f c).isEndOfFile = c.isEndOfFile)
    (h : MarkedChunksHaveLines chunks) (hphase : chunkPhase chunks ≠ .closed) :
    MarkedChunksHaveLines (onLastChunk f chunks)
      ∧ chunkPhase (onLastChunk f chunks) = .filled := by
  rw [onLastChunk_eq_concat, chunkPhase_concat, hlines, heof, getLast_not_closed h hphase]
  refine ⟨?_, rfl⟩
  intro chunk hl _
  rw [List.getLast?_concat, some.injEq] at hl
  rw [← hl]
  exact hlines _

/-- The end-of-file marker closes the last chunk, and does nothing without one. -/
theorem markEndOfFile_spec (hphase : chunkPhase chunks = .none ∨ chunkPhase chunks = .filled) :
    MarkedChunksHaveLines (markEndOfFile chunks)
      ∧ chunkPhase (markEndOfFile chunks)
        = if chunkPhase chunks = .none then .none else .closed := by
  unfold markEndOfFile
  cases hl : chunks.getLast? with
  | none =>
    rw [List.getLast?_eq_none_iff.mp hl]
    refine ⟨?_, rfl⟩
    intro chunk h
    cases h
  | some chunk =>
    have hlines : chunk.hasNoLines = false := by
      unfold chunkPhase at hphase
      rw [hl] at hphase
      cases hn : chunk.hasNoLines <;> simp_all
    have hsome : chunkPhase chunks ≠ .none := by
      unfold chunkPhase
      rw [hl]
      cases he : chunk.isEndOfFile <;> simp [hlines, he]
    rw [chunkPhase_concat, if_neg hsome]
    refine ⟨?_, ?_⟩
    · intro c hc _
      rw [List.getLast?_concat, some.injEq] at hc
      rw [← hc]
      exact hlines
    · rw [if_neg (by simpa [hasNoLines] using hlines), if_pos rfl]

/-- Body lines move the phase of the chunks as `Phase.after` says, and only mark
chunks that have lines. -/
theorem BodyLine.perform_spec {movePath : Option Text} (hmarked : MarkedChunksHaveLines chunks)
    (hb : b.Allowed movePath.isSome (chunkPhase chunks)) :
    MarkedChunksHaveLines (b.perform movePath chunks).2
      ∧ updateFile (b.perform movePath chunks).1.isSome
          (chunkPhase (b.perform movePath chunks).2)
        = (updateFile movePath.isSome (chunkPhase chunks)).after (.body b) := by
  cases b with
  | skip => exact ⟨hmarked, rfl⟩
  | moveTo path => exact ⟨hmarked, rfl⟩
  | openChunk changeContext =>
    refine ⟨?_, ?_⟩
    · intro chunk hl he
      simp only [BodyLine.perform, List.getLast?_concat, some.injEq] at hl
      subst hl
      cases he
    · simp [BodyLine.perform, chunkPhase_concat, hasNoLines, after]
  | endOfFile =>
    obtain ⟨h1, h2⟩ := markEndOfFile_spec hb
    refine ⟨h1, ?_⟩
    simp only [BodyLine.perform]
    rw [h2]
    rcases hb with hb | hb <;> rw [hb] <;> rfl
  | context line =>
    obtain ⟨h1, h2⟩ := onLastChunk_spec (f := (·.pushContextLine line))
      (by simp [hasNoLines, pushContextLine])
      (fun _ => rfl) hmarked hb
    exact ⟨h1, by simp only [BodyLine.perform]; rw [h2]; rfl⟩
  | added line =>
    obtain ⟨h1, h2⟩ := onLastChunk_spec (f := (·.pushNewLine line))
      (by simp [hasNoLines, pushNewLine])
      (fun _ => rfl) hmarked hb
    exact ⟨h1, by simp only [BodyLine.perform]; rw [h2]; rfl⟩
  | removed line =>
    obtain ⟨h1, h2⟩ := onLastChunk_spec (f := (·.pushOldLine line))
      (by simp [hasNoLines, pushOldLine])
      (fun _ => rfl) hmarked hb
    exact ⟨h1, by simp only [BodyLine.perform]; rw [h2]; rfl⟩

namespace StreamingPatchParser

/-- An update hunk may be ended when its last chunk has lines. -/
theorem exists_getLast_of_closable {moved : Bool} {chunks : List UpdateFileChunk}
    (h : (updateFile moved (chunkPhase chunks)).closable = true) :
    ∃ chunk, chunks.getLast? = some chunk ∧ chunk.hasNoLines = false := by
  unfold chunkPhase at h
  cases hl : chunks.getLast? with
  | none => simp [hl, closable] at h
  | some chunk =>
    refine ⟨chunk, rfl, ?_⟩
    cases hn : chunk.hasNoLines with
    | true => simp [hl, hn, closable] at h
    | false => rfl

variable {p : StreamingPatchParser}

/-- A header opens a hunk in its own phase. -/
theorem enter_spec (hp : Inv p) (hclosable : (phaseOf p).closable = true) (h : Header) :
    Inv (p.enter h) ∧ phaseOf (p.enter h) = h.phase := by
  cases h with
  | addFile path => simp [enter, pushHunk, Inv, phaseOf, Header.phase]
  | deleteFile path => simp [enter, pushHunk, Inv, phaseOf, Header.phase]
  | updateFile path =>
    simp [enter, pushHunk, Inv, phaseOf, Header.phase, MarkedChunksHaveLines, chunkPhase]
  | endPatch =>
    refine ⟨?_, rfl⟩
    show ∀ path movePath chunks, p.state.hunks.getLast? = some (.updateFile path movePath chunks) →
      ∃ chunk, chunks.getLast? = some chunk ∧ chunk.hasNoLines = false
    intro path movePath chunks hlast
    unfold Inv at hp
    cases hmode : p.state.mode with
    | updateFile k =>
      simp only [phaseOf, hmode, hlast] at hclosable
      exact exists_getLast_of_closable hclosable
    | endedPatch =>
      simp only [hmode] at hp
      exact hp path movePath chunks hlast
    | _ => simp [hmode, hlast] at hp

theorem getLast_of_allows_fileLine (hp : Inv p) {line : Text}
    (he : (phaseOf p).Allows (.fileLine line)) :
    ∃ path contents, p.state.hunks.getLast? = some (.addFile path contents) := by
  unfold Inv at hp
  unfold phaseOf at he
  cases hmode : p.state.mode with
  | addFile => simpa [hmode] using hp
  | updateFile k =>
    simp only [hmode] at hp
    obtain ⟨path, movePath, chunks, hlast, -⟩ := hp
    simp [hmode, hlast, Phase.Allows] at he
  | _ => simp [hmode, Phase.Allows] at he

/-- A body line belongs to an update hunk, the last one. -/
theorem getLast_of_allows_body (hp : Inv p) {b : BodyLine} (he : (phaseOf p).Allows (.body b)) :
    ∃ path movePath chunks, p.state.hunks.getLast? = some (.updateFile path movePath chunks)
      ∧ MarkedChunksHaveLines chunks ∧ b.Allowed movePath.isSome (chunkPhase chunks) := by
  unfold Inv at hp
  unfold phaseOf at he
  cases hmode : p.state.mode with
  | updateFile k =>
    simp only [hmode] at hp
    obtain ⟨path, movePath, chunks, hlast, hmarked⟩ := hp
    simp only [hmode, hlast] at he
    exact ⟨path, movePath, chunks, hlast, hmarked, he⟩
  | _ => simp [hmode, Phase.Allows] at he

/-- **One step.**  An allowed event keeps the invariant and moves the phase. -/
theorem perform_spec (hp : Inv p) {e : LineEvent} (he : (phaseOf p).Allows e) :
    Inv (p.perform e) ∧ phaseOf (p.perform e) = (phaseOf p).after e := by
  have hinv := hp
  unfold Inv at hinv
  cases hmode : p.state.mode with
  | notStarted =>
    have hphase : phaseOf p = .notStarted := by simp [phaseOf, hmode]
    rw [hphase] at he ⊢
    cases e with
    | begin =>
      simp only [hmode] at hinv
      exact ⟨hinv.1, by simp [perform, setMode, phaseOf, hinv.2, after]⟩
    | _ => exact he.elim
  | startedPatch =>
    have hphase : phaseOf p = .preamble p.state.environmentId.isSome := by simp [phaseOf, hmode]
    rw [hphase] at he ⊢
    cases e with
    | environment environmentId => simp_all [perform, Inv, phaseOf, after]
    | header h => exact enter_spec hp (by rw [hphase]; rfl) h
    | _ => exact he.elim
  | addFile =>
      have hphase : phaseOf p = .addFile := by simp [phaseOf, hmode]
      rw [hphase] at he ⊢
      cases e with
      | fileLine line =>
        simp only [hmode] at hinv
        obtain ⟨path, contents, hlast⟩ := hinv
        simp [perform, hlast, setLastHunk, Inv, phaseOf, hmode, after]
      | header h => exact enter_spec hp (by rw [hphase]; rfl) h
      | _ => exact he.elim
  | deleteFile =>
    have hphase : phaseOf p = .deleteFile := by simp [phaseOf, hmode]
    rw [hphase] at he ⊢
    cases e with
    | header h => exact enter_spec hp (by rw [hphase]; rfl) h
    | _ => exact he.elim
  | updateFile k =>
      simp only [hmode] at hinv
      obtain ⟨path, movePath, chunks, hlast, hmarked⟩ := hinv
      have hphase : phaseOf p = .updateFile movePath.isSome (chunkPhase chunks) := by
        simp [phaseOf, hmode, hlast]
      rw [hphase] at he ⊢
      cases e with
      | header h => exact enter_spec hp (by rw [hphase]; exact he) h
      | body b =>
        obtain ⟨hm, hc⟩ := BodyLine.perform_spec hmarked he
        rw [← hc]
        simp [perform, hlast, setLastHunk, Inv, phaseOf, hmode, hm]
      | _ => exact he.elim
  | endedPatch =>
    have hphase : phaseOf p = .ended := by simp [phaseOf, hmode]
    rw [hphase] at he ⊢
    cases e with
    | blank => exact ⟨hp, hphase⟩
    | _ => exact he.elim

end StreamingPatchParser

end ApplyPatch
