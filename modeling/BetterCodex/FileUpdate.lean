/-
# Updating a file (`apply-patch/src/file_update.rs`, `seek_sequence.rs`, `text_file.rs`)

How the chunks of an update hunk are located in a file and turned into replacements
of its lines.  Lines keep their own line ending (LF, CRLF or CR).
-/
import BetterCodex.PatchChunks
import BetterCodex.Splice

open RustStr Splice

namespace ApplyPatch

/-! ## `seek_sequence` -/

/-- One character of `normalise`: dashes, quotes and spaces to their ASCII form. -/
def normaliseChar (c : Char) : Char :=
  let n := c.toNat
  if (0x2010 ≤ n ∧ n ≤ 0x2015) ∨ n = 0x2212 then '-'
  else if 0x2018 ≤ n ∧ n ≤ 0x201b then '\''
  else if 0x201c ≤ n ∧ n ≤ 0x201f then '"'
  else if n = 0xa0 ∨ (0x2002 ≤ n ∧ n ≤ 0x200a) ∨ n = 0x202f ∨ n = 0x205f ∨ n = 0x3000 then ' '
  else c

def normalise (s : Text) : Text := (trim s).map normaliseChar

/-- The four passes of the search, from the strictest on. -/
def matchPasses : List (Text → Text) := [id, trimEnd, trim, normalise]

/-- The pattern stands at index `i`, up to `pass`. -/
def matchesAt (pass : Text → Text) (lines pattern : List Text) (i : ℕ) : Bool :=
  ((lines.drop i).take pattern.length).map pass == pattern.map pass

/-- Where the search starts: with `eof` not before the last place that fits. -/
def searchStart (lines pattern : List Text) (start : ℕ) (eof : Bool) : ℕ :=
  if eof then max (lines.length - pattern.length) start else start

def seekSequence (lines pattern : List Text) (start : ℕ) (eof : Bool) : Option ℕ :=
  if pattern = [] then some start
  else if lines.length < pattern.length then none
  else
    let first := searchStart lines pattern start eof
    let candidates := List.range' first (lines.length - pattern.length + 1 - first)
    matchPasses.findSome? (fun pass => candidates.find? (matchesAt pass lines pattern))

/-! ## `SourceFile` -/

inductive LineEnding where
  | lf
  | crLf
  | cr
  deriving DecidableEq, Repr

def LineEnding.asStr : LineEnding → Text
  | .lf => ['\n']
  | .crLf => ['\r', '\n']
  | .cr => ['\r']

structure SourceLine where
  text : Text
  ending : Option LineEnding
  deriving DecidableEq, Repr

structure SourceFile where
  lines : List SourceLine
  preferredEnding : LineEnding
  deriving DecidableEq, Repr

/-- The line loop of `SourceFile::parse`; `current` is the line read so far. -/
def parseLines (current : Text) : Text → List SourceLine
  | [] => if current = [] then [] else [⟨current, none⟩]
  | '\r' :: '\n' :: rest => ⟨current, some .crLf⟩ :: parseLines [] rest
  | '\r' :: rest => ⟨current, some .cr⟩ :: parseLines [] rest
  | '\n' :: rest => ⟨current, some .lf⟩ :: parseLines [] rest
  | c :: rest => parseLines (current ++ [c]) rest

/-- `SourceFile::parse`: the first ending is the preferred one. -/
def SourceFile.parse (contents : Text) : SourceFile where
  lines := parseLines [] contents
  preferredEnding := ((parseLines [] contents).findSome? (·.ending)).getD .lf

def SourceFile.lineTexts (f : SourceFile) : List Text := f.lines.map (·.text)

/-- A line with its ending, or with the given one (`get_or_insert`). -/
def SourceLine.terminate (ending : LineEnding) (l : SourceLine) : SourceLine :=
  { l with ending := some (l.ending.getD ending) }

/-- An inserted line. -/
def SourceLine.inserted (ending : LineEnding) (text : Text) : SourceLine := ⟨text, some ending⟩

def SourceFile.applyReplacements (f : SourceFile) (rs : List (Replacement Text)) : SourceFile :=
  { f with
    lines := (applyFrom 0 f.lines (rs.map (.map (.inserted f.preferredEnding)))).map
      (SourceLine.terminate f.preferredEnding) }

/-- The text of a line with its ending. -/
def SourceLine.render (l : SourceLine) : Text :=
  l.text ++ (l.ending.map LineEnding.asStr).getD []

def SourceFile.intoContents (f : SourceFile) : Text := f.lines.flatMap SourceLine.render

/-! ## `compute_replacements` -/

def contextNotFoundMessage (contextLine path : Text) : Text :=
  "Failed to find context '".toList ++ contextLine ++ "' in ".toList ++ path

def linesNotFoundMessage (path : Text) (oldLines : List Text) : Text :=
  "Failed to find expected lines in ".toList ++ path ++ ":\n".toList ++ joinLines oldLines

/-- The line index after the change context of a chunk. -/
def seekChangeContext (lines : List Text) (path : Text) (lineIndex : ℕ) :
    Option Text → Except Text ℕ
  | none => .ok lineIndex
  | some contextLine =>
    match seekSequence lines [contextLine] lineIndex false with
    | some i => .ok (i + 1)
    | none => .error (contextNotFoundMessage contextLine path)

/-- A side of a chunk without its final empty line. -/
def dropSentinel (side : List Text) : List Text :=
  if side.getLast? = some [] then side.dropLast else side

/-- Locate the old lines of a chunk: as they are, or without the final empty line,
which is then dropped from the new lines too.  Returns the place, the pattern that was
found and the lines it is replaced by. -/
def locateChunk (lines : List Text) (lineIndex : ℕ) (chunk : UpdateFileChunk) :
    Option (ℕ × List Text × List Text) :=
  match seekSequence lines chunk.oldLines lineIndex chunk.isEndOfFile with
  | some start => some (start, chunk.oldLines, chunk.newLines)
  | none =>
    if chunk.oldLines.getLast? = some [] then
      (seekSequence lines chunk.oldLines.dropLast lineIndex chunk.isEndOfFile).map
        (fun start => (start, chunk.oldLines.dropLast, dropSentinel chunk.newLines))
    else none

/-- The replacement of the stretches from `oldStart` and `newStart` to the ends. -/
def lastReplacement (pattern newSlice : List Text) (startIdx oldStart newStart : ℕ) :
    List (Replacement Text) :=
  if oldStart ≠ pattern.length ∨ newStart ≠ newSlice.length then
    [⟨startIdx + oldStart, pattern.length - oldStart, newSlice.drop newStart⟩]
  else []

/-- The context loop: one replacement for each stretch between two context lines. -/
def stretchReplacements (pattern newSlice : List Text) (startIdx : ℕ) :
    ℕ → ℕ → List (ℕ × ℕ) → List (Replacement Text)
  | oldStart, newStart, [] => lastReplacement pattern newSlice startIdx oldStart newStart
  | oldStart, newStart, (oldContext, newContext) :: contexts =>
    if pattern.length ≤ oldContext ∨ newSlice.length ≤ newContext then
      lastReplacement pattern newSlice startIdx oldStart newStart
    else
      (if oldStart ≠ oldContext ∨ newStart ≠ newContext then
        [⟨startIdx + oldStart, oldContext - oldStart, slice newSlice newStart newContext⟩]
      else [])
        ++ stretchReplacements pattern newSlice startIdx (oldContext + 1) (newContext + 1) contexts

/-- One chunk: its replacements and the line index after it. -/
def chunkReplacements (lines : List Text) (path : Text) (lineIndex : ℕ)
    (chunk : UpdateFileChunk) : Except Text (List (Replacement Text) × ℕ) := do
  let lineIndex ← seekChangeContext lines path lineIndex chunk.changeContext
  if chunk.oldLines = [] then
    return ([⟨lines.length, 0, chunk.newLines⟩], lineIndex)
  else
    match locateChunk lines lineIndex chunk with
    | some (start, pattern, newSlice) =>
      return (stretchReplacements pattern newSlice start 0 0 chunk.contextLineIndices,
        start + pattern.length)
    | none => .error (linesNotFoundMessage path chunk.oldLines)

/-- The replacements of the chunks, in the order of the chunks. -/
def collectReplacements (lines : List Text) (path : Text) :
    ℕ → List UpdateFileChunk → Except Text (List (Replacement Text))
  | _, [] => .ok []
  | lineIndex, chunk :: chunks => do
    let (rs, lineIndex) ← chunkReplacements lines path lineIndex chunk
    let rest ← collectReplacements lines path lineIndex chunks
    return rs ++ rest

def computeReplacements (lines : List Text) (path : Text) (chunks : List UpdateFileChunk) :
    Except Text (List (Replacement Text)) :=
  (collectReplacements lines path 0 chunks).map sortByStart

/-- `derive_new_contents_from_chunks`, on the contents that were read. -/
def deriveNewContents (path contents : Text) (chunks : List UpdateFileChunk) :
    Except Text Text := do
  let file := SourceFile.parse contents
  let rs ← computeReplacements file.lineTexts path chunks
  return (file.applyReplacements rs).intoContents

end ApplyPatch
