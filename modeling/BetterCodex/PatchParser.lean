/-
# The patch parser (`apply-patch/src/parser.rs`, `streaming_parser.rs`)

The line machine that reads a patch text into hunks, and its two front ends, which push
the text delta by delta and as a whole.

Paths are kept as the texts they are parsed from.  A parser that returned an
error is never used again by its callers, so `Except` drops its state.
-/
import BetterCodex.RustStr

open RustStr

namespace ApplyPatch

/-! ## Markers -/

def beginPatchMarker : Text := "*** Begin Patch".toList
def endPatchMarker : Text := "*** End Patch".toList
def addFileMarker : Text := "*** Add File: ".toList
def deleteFileMarker : Text := "*** Delete File: ".toList
def updateFileMarker : Text := "*** Update File: ".toList
def moveToMarker : Text := "*** Move to: ".toList
def eofMarker : Text := "*** End of File".toList
def changeContextMarker : Text := "@@ ".toList
def emptyChangeContextMarker : Text := "@@".toList
def environmentIdMarker : Text := "*** Environment ID:".toList

/-! ## Hunks and errors -/

inductive ParseError where
  | invalidPatchError (message : Text)
  | invalidHunkError (message : Text) (lineNumber : ℕ)
  deriving DecidableEq, Repr

/-- `UpdateFileChunk`: one change of an update hunk.  `contextLineIndices` pairs
the places of each context line in `oldLines` and in `newLines`. -/
structure UpdateFileChunk where
  changeContext : Option Text := none
  oldLines : List Text := []
  newLines : List Text := []
  contextLineIndices : List (ℕ × ℕ) := []
  isEndOfFile : Bool := false
  deriving DecidableEq, Repr

def UpdateFileChunk.pushContextLine (c : UpdateFileChunk) (line : Text) : UpdateFileChunk :=
  { c with
    contextLineIndices := c.contextLineIndices ++ [(c.oldLines.length, c.newLines.length)]
    oldLines := c.oldLines ++ [line]
    newLines := c.newLines ++ [line] }

/-- A `+` line of a chunk. -/
def UpdateFileChunk.pushNewLine (c : UpdateFileChunk) (line : Text) : UpdateFileChunk :=
  { c with newLines := c.newLines ++ [line] }

/-- A `-` line of a chunk. -/
def UpdateFileChunk.pushOldLine (c : UpdateFileChunk) (line : Text) : UpdateFileChunk :=
  { c with oldLines := c.oldLines ++ [line] }

/-- A chunk with no line yet, on either side. -/
def UpdateFileChunk.hasNoLines (c : UpdateFileChunk) : Bool :=
  c.oldLines.isEmpty && c.newLines.isEmpty

inductive Hunk where
  | addFile (path : Text) (contents : Text)
  | deleteFile (path : Text)
  | updateFile (path : Text) (movePath : Option Text) (chunks : List UpdateFileChunk)
  deriving DecidableEq, Repr

/-! ## Error messages -/

def firstLineMessage : Text := "The first line of the patch must be '*** Begin Patch'".toList
def lastLineMessage : Text := "The last line of the patch must be '*** End Patch'".toList
def duplicateEnvironmentIdMessage : Text :=
  "apply_patch environment_id cannot be specified more than once".toList
def emptyEnvironmentIdMessage : Text := "apply_patch environment_id cannot be empty".toList
def noLinesMessage : Text := "Update hunk does not contain any lines".toList

def emptyUpdateHunkMessage (path : Text) : Text :=
  "Update file hunk for path '".toList ++ path ++ "' is empty".toList

def unexpectedLineMessage (line : Text) : Text :=
  "Unexpected line found in update hunk: '".toList ++ line
    ++ ("'. Every line should start with ' ' (context line), '+' (added line), "
      ++ "or '-' (removed line)").toList

def expectedContextMarkerMessage (line : Text) : Text :=
  "Expected update hunk to start with a @@ context marker, got: '".toList ++ line ++ "'".toList

def invalidHunkHeaderMessage (trimmed : Text) : Text :=
  "'".toList ++ trimmed
    ++ ("' is not a valid hunk header. Valid hunk headers: '*** Add File: \x7bpath\x7d', "
      ++ "'*** Delete File: \x7bpath\x7d', '*** Update File: \x7bpath\x7d'").toList

/-! ## The line machine -/

inductive StreamingParserMode where
  | notStarted
  | startedPatch
  | addFile
  | deleteFile
  | updateFile (hunkLineNumber : ℕ)
  | endedPatch
  deriving DecidableEq, Repr

structure StreamingParserState where
  mode : StreamingParserMode := .notStarted
  hunks : List Hunk := []
  environmentId : Option Text := none
  deriving DecidableEq, Repr

structure StreamingPatchParser where
  lineBuffer : Text := []
  state : StreamingParserState := {}
  lineNumber : ℕ := 0
  deriving DecidableEq, Repr

namespace StreamingPatchParser

variable (p : StreamingPatchParser)

/-- Record a new hunk and enter its mode. -/
def pushHunk (h : Hunk) (mode : StreamingParserMode) :
    StreamingPatchParser :=
  { p with state := { p.state with hunks := p.state.hunks ++ [h], mode := mode } }

/-- Replace the last hunk (`hunks.last_mut()`). -/
def setLastHunk (h : Hunk) : StreamingPatchParser :=
  { p with state := { p.state with hunks := p.state.hunks.dropLast ++ [h] } }

/-- Change the mode only. -/
def setMode (mode : StreamingParserMode) : StreamingPatchParser :=
  { p with state := { p.state with mode := mode } }

def ensureUpdateHunkIsNotEmpty (line : Text) : Except ParseError Unit :=
  match p.state.hunks.getLast? with
  | some (.updateFile path _ chunks) =>
    match chunks.getLast?, p.state.mode with
    | none, .updateFile hunkLineNumber =>
      .error (.invalidHunkError (emptyUpdateHunkMessage path) hunkLineNumber)
    | none, _ => .ok ()
    | some chunk, _ =>
      if chunk.hasNoLines then
        if line = endPatchMarker then
          .error (.invalidHunkError noLinesMessage p.lineNumber)
        else
          .error (.invalidHunkError (unexpectedLineMessage line) p.lineNumber)
      else .ok ()
  | _ => .ok ()

/-- The environment id of a preamble line: only in the mode right after the
begin marker, and only behind the marker. -/
def preambleEnvironmentId (trimmed : Text) : Option Text :=
  if p.state.mode = .startedPatch then stripPrefix environmentIdMarker trimmed else none

/-- `handle_hunk_headers_and_end_patch`: `some p'` when the line was a header or
the end marker (`Ok(true)`), `none` when it was neither (`Ok(false)`). -/
def handleHunkHeadersAndEndPatch (trimmed : Text) :
    Except ParseError (Option StreamingPatchParser) :=
  match p.preambleEnvironmentId trimmed with
  | some environmentId =>
    if p.state.environmentId.isSome then
      .error (.invalidPatchError duplicateEnvironmentIdMessage)
    else if trim environmentId = [] then
      .error (.invalidPatchError emptyEnvironmentIdMessage)
    else
      .ok (some { p with
        state := { p.state with environmentId := some (trim environmentId) } })
  | none =>
    if trimmed = endPatchMarker then
      (p.ensureUpdateHunkIsNotEmpty trimmed).map (fun _ => some (p.setMode .endedPatch))
    else
      match stripPrefix addFileMarker trimmed with
      | some path =>
        (p.ensureUpdateHunkIsNotEmpty trimmed).map
          (fun _ => some (p.pushHunk (.addFile path []) .addFile))
      | none =>
        match stripPrefix deleteFileMarker trimmed with
        | some path =>
          (p.ensureUpdateHunkIsNotEmpty trimmed).map
            (fun _ => some (p.pushHunk (.deleteFile path) .deleteFile))
        | none =>
          match stripPrefix updateFileMarker trimmed with
          | some path =>
            (p.ensureUpdateHunkIsNotEmpty trimmed).map
              (fun _ => some (p.pushHunk (.updateFile path none [])
                (.updateFile p.lineNumber)))
          | none => .ok none

end StreamingPatchParser

/-- Apply `f` to the last chunk, after opening one when there is none. -/
def onLastChunk (f : UpdateFileChunk → UpdateFileChunk) (chunks : List UpdateFileChunk) :
    List UpdateFileChunk :=
  match chunks.getLast? with
  | none => [f {}]
  | some chunk => chunks.dropLast ++ [f chunk]

/-- `chunks.last_mut()` in the end-of-file branch: without a chunk the marker is
skipped. -/
def markEndOfFile (chunks : List UpdateFileChunk) : List UpdateFileChunk :=
  match chunks.getLast? with
  | none => chunks
  | some chunk => chunks.dropLast ++ [{ chunk with isEndOfFile := true }]

/-- The last chunk is closed by an end-of-file marker. -/
def lastIsEndOfFile (chunks : List UpdateFileChunk) : Bool :=
  chunks.getLast?.any (·.isEndOfFile)

/-- The last chunk has no line yet. -/
def lastHasNoLines (chunks : List UpdateFileChunk) : Bool :=
  chunks.getLast?.any (·.hasNoLines)

/-- A line that opens a chunk, bare or with a context. -/
def isContextMarker (updateLine : Text) : Bool :=
  updateLine = emptyChangeContextMarker || startsWith updateLine changeContextMarker

/-- The data lines of an update hunk: a bare empty line is an empty context line,
any other is read by its first character. -/
def dataLine (lineNumber : ℕ) (line : Text) (movePath : Option Text)
    (chunks : List UpdateFileChunk) : Except ParseError (Option Text × List UpdateFileChunk) :=
  match line with
  | [] => .ok (movePath, onLastChunk (·.pushContextLine []) chunks)
  | ' ' :: rest => .ok (movePath, onLastChunk (·.pushContextLine rest) chunks)
  | '+' :: rest => .ok (movePath, onLastChunk (·.pushNewLine rest) chunks)
  | '-' :: rest => .ok (movePath, onLastChunk (·.pushOldLine rest) chunks)
  | _ :: _ =>
    -- a chunk with lines asks for the next marker, one without for its lines
    if chunks.getLast?.any (fun chunk => !chunk.hasNoLines) then
      .error (.invalidHunkError (expectedContextMarkerMessage line) lineNumber)
    else
      .error (.invalidHunkError (unexpectedLineMessage line) lineNumber)

/-- The body of an update hunk: what one line that is no header does to the move
path and the chunks of the hunk being read. -/
def updateFileLine (lineNumber : ℕ) (line : Text) (movePath : Option Text)
    (chunks : List UpdateFileChunk) :
    Except ParseError (Option Text × List UpdateFileChunk) :=
  let updateLine := trimEnd line
  if lastIsEndOfFile chunks && updateLine.isEmpty then .ok (movePath, chunks)
  else if lastIsEndOfFile chunks && !isContextMarker updateLine then
    .error (.invalidHunkError (expectedContextMarkerMessage line) lineNumber)
  else
    match (if chunks.isEmpty && movePath.isNone then stripPrefix moveToMarker updateLine
      else none) with
    | some moveToPath => .ok (some moveToPath, chunks)
    | none =>
      if isContextMarker updateLine && lastHasNoLines chunks then
        .error (.invalidHunkError (unexpectedLineMessage line) lineNumber)
      else if updateLine = emptyChangeContextMarker then
        .ok (movePath, chunks ++ [{}])
      else
        match stripPrefix changeContextMarker updateLine with
        | some changeContext =>
          .ok (movePath, chunks ++ [{ changeContext := some changeContext }])
        | none =>
          if updateLine = eofMarker then
            if lastHasNoLines chunks then
              .error (.invalidHunkError noLinesMessage lineNumber)
            else .ok (movePath, markEndOfFile chunks)
          else dataLine lineNumber line movePath chunks

namespace StreamingPatchParser

variable (p : StreamingPatchParser)

/-- A line that is neither a header nor data where only headers may stand. -/
def invalidHunkHeader (trimmed : Text) : Except ParseError StreamingPatchParser :=
  .error (.invalidHunkError (invalidHunkHeaderMessage trimmed) p.lineNumber)

/-- `if self.handle_hunk_headers_and_end_patch(trimmed)? { return Ok(()) }`, with
`rest` for the code behind it. -/
def orHeader (trimmed : Text)
    (rest : Except ParseError StreamingPatchParser) : Except ParseError StreamingPatchParser :=
  match p.handleHunkHeadersAndEndPatch trimmed with
  | .error e => .error e
  | .ok (some p') => .ok p'
  | .ok none => rest

def processLine (line : Text) : Except ParseError StreamingPatchParser :=
  let trimmed := trim line
  match p.state.mode with
  | .notStarted =>
    if trimmed = beginPatchMarker then .ok (p.setMode .startedPatch)
    else .error (.invalidPatchError firstLineMessage)
  | .startedPatch => p.orHeader trimmed (p.invalidHunkHeader trimmed)
  | .addFile =>
    p.orHeader trimmed
      (match line, p.state.hunks.getLast? with
        | '+' :: lineToAdd, some (.addFile path contents) =>
          .ok (p.setLastHunk (.addFile path (contents ++ lineToAdd ++ ['\n'])))
        | _, _ => p.invalidHunkHeader trimmed)
  | .deleteFile => p.orHeader trimmed (p.invalidHunkHeader trimmed)
  | .updateFile _ =>
    p.orHeader (trimEnd line)
      (match p.state.hunks.getLast? with
        | some (.updateFile path movePath chunks) =>
          (updateFileLine p.lineNumber line movePath chunks).map
            (fun r => p.setLastHunk (.updateFile path r.1 r.2))
        | _ => .error (.invalidHunkError (unexpectedLineMessage line) p.lineNumber))
  | .endedPatch =>
    if trimmed = [] then .ok p else .error (.invalidPatchError lastLineMessage)

/-- The parser at the start of its next line: the buffer is taken
(`std::mem::take`) and the line counted. -/
def nextLine : StreamingPatchParser :=
  { p with lineBuffer := [], lineNumber := p.lineNumber + 1 }

/-- One character of `push_delta`: an LF closes the buffered line. -/
def pushChar (ch : Char) : Except ParseError StreamingPatchParser :=
  if ch = '\n' then p.nextLine.processLine (stripCr p.lineBuffer)
  else .ok { p with lineBuffer := p.lineBuffer ++ [ch] }

/-- `push_delta`; the hunks it returns are those of the parser it leaves. -/
def pushDelta (delta : Text) : Except ParseError StreamingPatchParser :=
  delta.foldlM pushChar p

/-- The last line of a patch, which `finish` closes without an LF. -/
def finishLine : Except ParseError StreamingPatchParser :=
  if p.lineBuffer = [] then .ok p
  else if trim p.lineBuffer = endPatchMarker then
    (p.nextLine.ensureUpdateHunkIsNotEmpty (trim p.lineBuffer)).map
      (fun _ => p.nextLine.setMode .endedPatch)
  else p.nextLine.processLine p.lineBuffer

/-- `finish`; the hunks it returns are those of the parser it leaves. -/
def finish : Except ParseError StreamingPatchParser :=
  match p.finishLine with
  | .error e => .error e
  | .ok q =>
    if q.state.mode = .endedPatch then .ok q
    else .error (.invalidPatchError lastLineMessage)

end StreamingPatchParser

/-! ## Whole texts -/

structure ApplyPatchArgs where
  patch : Text
  hunks : List Hunk
  workdir : Option Text
  environmentId : Option Text
  deriving DecidableEq, Repr

inductive ParseMode where
  | strict
  | lenient
  deriving DecidableEq, Repr

def checkStartAndEndLinesStrict (firstLine lastLine : Option Text) : Except ParseError Unit :=
  match firstLine.map trim, lastLine.map trim with
  | some first, some last =>
    if first = beginPatchMarker ∧ last = endPatchMarker then .ok ()
    else if first ≠ beginPatchMarker then .error (.invalidPatchError firstLineMessage)
    else .error (.invalidPatchError lastLineMessage)
  | some first, none =>
    if first ≠ beginPatchMarker then .error (.invalidPatchError firstLineMessage)
    else .error (.invalidPatchError lastLineMessage)
  | none, _ => .error (.invalidPatchError lastLineMessage)

def checkPatchBoundariesStrict (ls : List Text) : Except ParseError (List Text) :=
  (checkStartAndEndLinesStrict ls.head? ls.getLast?).map (fun _ => ls)

/-- The heredoc wrapper of the lenient mode: its marker on the first line, a last
line that ends in `EOF`, and at least four lines. -/
def isHeredoc (ls : List Text) : Bool :=
  (ls.head? == some "<<EOF".toList || ls.head? == some "<<'EOF'".toList
      || ls.head? == some "<<\"EOF\"".toList)
    && ls.getLast?.any (fun last => endsWith last "EOF".toList)
    && decide (4 ≤ ls.length)

def checkPatchBoundariesLenient (ls : List Text) : Except ParseError (List Text) :=
  match checkPatchBoundariesStrict ls with
  | .ok ls => .ok ls
  | .error e =>
    if isHeredoc ls then checkPatchBoundariesStrict (ls.drop 1).dropLast
    else .error e

/-- Push a text into a fresh parser and finish it. -/
def runText (text : Text) : Except ParseError StreamingPatchParser := do
  let p ← ({} : StreamingPatchParser).pushDelta text
  p.finish

/-- The boundary check of a mode. -/
def ParseMode.checkPatchBoundaries : ParseMode → List Text → Except ParseError (List Text)
  | .strict => checkPatchBoundariesStrict
  | .lenient => checkPatchBoundariesLenient

def parsePatchText (patch : Text) (mode : ParseMode) : Except ParseError ApplyPatchArgs := do
  let patchLines ← mode.checkPatchBoundaries (lines (trim patch))
  let parser ← runText (joinLines patchLines)
  return { patch := joinLines patchLines, hunks := parser.state.hunks, workdir := none
           environmentId := parser.state.environmentId }

/-- `parse_patch`: the lenient mode (`PARSE_IN_STRICT_MODE` is false). -/
def parsePatch (patch : Text) : Except ParseError ApplyPatchArgs :=
  parsePatchText patch .lenient

end ApplyPatch
