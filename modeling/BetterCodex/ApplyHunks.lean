/-
# Applying hunks (`apply-patch/src/lib.rs`)

`applyHunksToFiles` carries out the hunks of a patch one after the other on a disk
whose operations may fail, and keeps a delta of the changes it has committed.  The
delta carries a flag: while it is `exact`, the recorded changes are meant to be all that
happened to the files.  The state of the program is the delta on top of the disk, and
both stay as they are when a hunk ends in an error.
-/
import BetterCodex.FileUpdate
import BetterCodex.Disk

open RustStr Disk

namespace ApplyPatch

/-- What the code uses of `PathUri`: joining a path of the patch to a directory, and
the form of a path in messages. -/
class PathUri (Path : Type) extends Nested Path where
  join : Path → Text → Except Text Path
  inferredNativePathString : Path → Text

export PathUri (inferredNativePathString)

/-- The simplest paths: the names of files in one directory. -/
structure FileName where
  name : Text
  deriving DecidableEq, Repr

instance : PathUri FileName where
  parent _ := none
  ancestors p := [p]
  join _ t := .ok ⟨t⟩
  inferredNativePathString p := p.name

variable {Path : Type}

/-! ## Errors -/

inductive ApplyPatchError where
  | parseError (error : ParseError)
  | ioError (context : Text) (source : IoError)
  | computeReplacements (message : Text)
  | pathUri (message : Text)
  deriving DecidableEq, Repr

/-- The errors of `apply_hunks_to_files`: a plain message, an error of the patch, a path
that cannot be resolved, or a failed operation under its context. -/
inductive ApplyError where
  | message (text : Text)
  | patch (error : ApplyPatchError)
  | pathUri (message : Text)
  | context (context : Text) (source : IoError)
  deriving DecidableEq, Repr

section Messages

variable [PathUri Path]

def noFilesMessage : Text := "No files were modified.".toList

def directoryError : IoError := ⟨.invalidInput, "path is a directory".toList⟩

def readContext (p : Path) : Text :=
  "Failed to read file to update ".toList ++ inferredNativePathString p

def deleteContext (p : Path) : Text :=
  "Failed to delete file ".toList ++ inferredNativePathString p

def removeContext (p : Path) : Text :=
  "Failed to remove original ".toList ++ inferredNativePathString p

def writeContext (p : Path) : Text :=
  "Failed to write file ".toList ++ inferredNativePathString p

def createContext (p : Path) : Text :=
  "Failed to create parent directories for ".toList ++ inferredNativePathString p

end Messages

/-! ## The delta -/

inductive AppliedPatchFileChange (Path : Type) where
  | add (content : Text) (overwrittenContent : Option Text)
  | delete (content : Text)
  | update (movePath : Option Path) (oldContent : Text) (overwrittenMoveContent : Option Text)
      (newContent : Text)
  deriving DecidableEq, Repr

structure AppliedPatchChange (Path : Type) where
  path : Path
  change : AppliedPatchFileChange Path
  deriving DecidableEq, Repr

structure AppliedPatchDelta (Path : Type) where
  changes : List (AppliedPatchChange Path)
  exact : Bool
  deriving DecidableEq, Repr

def AppliedPatchDelta.empty : AppliedPatchDelta Path := ⟨[], true⟩

/-- A program that records changes in a delta. -/
abbrev Recording (Path : Type) := StateT (AppliedPatchDelta Path) (Fs Path)

/-- The same where it may end in an error. -/
abbrev Patching (Path : Type) := ExceptT ApplyError (Recording Path)

/-- `delta.exact &= b`. -/
def andExact (Path : Type) (b : Bool) : Recording Path Unit :=
  modify fun δ => { δ with exact := δ.exact && b }

/-- `delta.changes.push(..)`. -/
def pushChange (c : AppliedPatchChange Path) : Recording Path Unit :=
  modify fun δ => { δ with changes := δ.changes ++ [c] }

/-- `delta.changes[i] = ..`. -/
def setChange (i : ℕ) (c : AppliedPatchChange Path) : Recording Path Unit :=
  modify fun δ => { δ with changes := δ.changes.set i c }

def noteExistingPathDeltaSupport (p : Path) : Recording Path Unit := do
  match ← getMetadata p with
  | .ok metadata => if metadata.isFile && !metadata.isSymlink then pure () else andExact Path false
  | .error source => if source.kind = .notFound then pure () else andExact Path false

def readOptionalFileTextForDelta (p : Path) : Recording Path (Option Text) := do
  noteExistingPathDeltaSupport p
  match ← readFile p with
  | .ok content => return some content
  | .error source =>
    if source.kind = .notFound then return none
    else
      andExact Path false
      return none

/-! ## File operations -/

/-- `with_context(..)?`. -/
def withContext {α : Type} (context : Text) (r : Except IoError α) : Patching Path α :=
  match r with
  | .ok a => pure a
  | .error source => throw (.context context source)

def ensureNotDirectory (p : Path) : Fs Path (Except IoError Unit) := do
  match ← getMetadata p with
  | .ok metadata => if metadata.isDirectory then return .error directoryError else return .ok ()
  | .error source => return .error source

def removeFailureWasSideEffectFree (p : Path) (expectedContent : Option Text) : Fs Path Bool :=
  match expectedContent with
  | some expected => do
    match ← readFile p with
    | .ok content => return content == expected
    | .error _ => return false
  | none => return false

section

variable [DecidableEq Path]

/-- The removal of a file, as deletions and moves do it: only a file, and after a
failed removal the delta stays exact if the file is still there as expected. -/
def removeOriginal (p : Path) (context : Text) (expectedContent : Option Text) :
    Patching Path Unit := do
  withContext context (← ensureNotDirectory p)
  match ← removeFile p with
  | .ok _ => pure ()
  | .error source =>
    andExact Path (← removeFailureWasSideEffectFree p expectedContent)
    throw (.context context source)

variable [PathUri Path]

def writeFileWithMissingParentRetry (p : Path) (contents : Text) :
    Fs Path (Except ApplyError Unit) := do
  match ← writeFile p contents with
  | .ok _ => return .ok ()
  | .error err =>
    if err.kind = .notFound then
      let created ← match Nested.parent p with
        | some parent => createDirectoryAll parent
        | none => pure (.ok ())
      match created with
      | .error source => return .error (.context (createContext p) source)
      | .ok _ =>
        match ← writeFile p contents with
        | .ok _ => return .ok ()
        | .error source => return .error (.context (writeContext p) source)
    else return .error (.context (writeContext p) err)

/-- `try_write!`: a failed write leaves the delta inexact. -/
def tryWrite {α : Type} (r : Except ApplyError α) : Patching Path α :=
  match r with
  | .ok a => pure a
  | .error e => do
    andExact Path false
    throw e

/-- `derive_new_contents_from_chunks`: the original contents and the new ones. -/
def deriveNewContentsFromChunks (p : Path) (chunks : List UpdateFileChunk) :
    ExceptT ApplyPatchError (Fs Path) (Text × Text) := do
  match ← readFile p with
  | .error source => throw (.ioError (readContext p) source)
  | .ok originalContents =>
    match deriveNewContents (inferredNativePathString p) originalContents chunks with
    | .error message => throw (.computeReplacements message)
    | .ok newContents => return (originalContents, newContents)

end

/-! ## `apply_hunks_to_files` -/

/-- `AffectedPaths`, in the spelling of the patch. -/
structure AffectedPaths where
  added : List Text
  modified : List Text
  deleted : List Text
  deriving DecidableEq, Repr

/-- `Hunk::path`: a moved file counts under its destination. -/
def Hunk.path : Hunk → Text
  | .addFile path _ => path
  | .deleteFile path => path
  | .updateFile path movePath _ => movePath.getD path

/-- The path that `Hunk::resolve_path` joins: a moved file counts under its source. -/
def Hunk.sourcePath : Hunk → Text
  | .addFile path _ => path
  | .deleteFile path => path
  | .updateFile path _ _ => path

variable [DecidableEq Path] [PathUri Path]

def Hunk.resolvePath (cwd : Path) (h : Hunk) : Except Text Path :=
  PathUri.join cwd h.sourcePath

/-- `cwd.join(..)?`. -/
def joinPath (r : Except Text Path) : Patching Path Path :=
  match r with
  | .ok p => pure p
  | .error message => throw (.pathUri message)

/-- The `AddFile` arm. -/
def applyAdd (p : Path) (contents : Text) : Patching Path Unit := do
  let overwrittenContent ← readOptionalFileTextForDelta p
  tryWrite (← writeFileWithMissingParentRetry p contents)
  pushChange ⟨p, .add contents overwrittenContent⟩

/-- The `DeleteFile` arm. -/
def applyDelete (p : Path) : Patching Path Unit := do
  noteExistingPathDeltaSupport p
  let deletedContent := (← readFile p).toOption
  andExact Path deletedContent.isSome
  removeOriginal p (deleteContext p) deletedContent
  match deletedContent with
  | some content => pushChange ⟨p, .delete content⟩
  | none => pure ()

/-- The move of an `UpdateFile` hunk: write the destination, then remove the source. -/
def applyMove (p dest : Path) (originalContents newContents : Text) : Patching Path Unit := do
  let overwrittenMoveContent ← readOptionalFileTextForDelta dest
  tryWrite (← writeFileWithMissingParentRetry dest newContents)
  let destWriteChangeIndex := (← getThe (AppliedPatchDelta Path)).changes.length
  pushChange ⟨dest, .add newContents overwrittenMoveContent⟩
  removeOriginal p (removeContext p) (some originalContents)
  setChange destWriteChangeIndex
    ⟨p, .update (some dest) originalContents overwrittenMoveContent newContents⟩

/-- An `UpdateFile` hunk in place. -/
def applyRewrite (p : Path) (originalContents newContents : Text) : Patching Path Unit := do
  match ← writeFile p newContents with
  | .ok _ => pushChange ⟨p, .update none originalContents none newContents⟩
  | .error source => tryWrite (.error (.context (writeContext p) source))

/-- The `UpdateFile` arm. -/
def applyUpdate (cwd p : Path) (movePath : Option Text) (chunks : List UpdateFileChunk) :
    Patching Path Unit := do
  noteExistingPathDeltaSupport p
  match ← (deriveNewContentsFromChunks p chunks).run with
  | .error e => throw (.patch e)
  | .ok (originalContents, newContents) =>
    match movePath with
    | some dest => applyMove p (← joinPath (PathUri.join cwd dest)) originalContents newContents
    | none => applyRewrite p originalContents newContents

/-- The paths affected so far, with those of one more hunk. -/
def AffectedPaths.record (affected : AffectedPaths) (h : Hunk) : AffectedPaths :=
  match h with
  | .addFile _ _ => { affected with added := affected.added ++ [h.path] }
  | .deleteFile _ => { affected with deleted := affected.deleted ++ [h.path] }
  | .updateFile _ _ _ => { affected with modified := affected.modified ++ [h.path] }

/-- One round of the loop over the hunks. -/
def applyHunk (cwd : Path) (affected : AffectedPaths) (h : Hunk) : Patching Path AffectedPaths := do
  let p ← joinPath (h.resolvePath cwd)
  match h with
  | .addFile _ contents => applyAdd p contents
  | .deleteFile _ => applyDelete p
  | .updateFile _ movePath chunks => applyUpdate cwd p movePath chunks
  return affected.record h

/-- The loop over the hunks. -/
def applyHunkLoop (cwd : Path) : AffectedPaths → List Hunk → Patching Path AffectedPaths
  | affected, [] => return affected
  | affected, h :: hunks => do applyHunkLoop cwd (← applyHunk cwd affected h) hunks

def applyHunksToFiles (cwd : Path) (hunks : List Hunk) : Patching Path AffectedPaths :=
  if hunks = [] then throw (.message noFilesMessage)
  else applyHunkLoop cwd ⟨[], [], []⟩ hunks

/-- How `apply_hunks_to_files` ends with an empty delta before it: its result, the delta
and the disk. -/
def runHunks (cwd : Path) (hunks : List Hunk) (d : State Path) :
    (Except ApplyError AffectedPaths × AppliedPatchDelta Path) × State Path :=
  (((applyHunksToFiles cwd hunks).run).run .empty).run d

end ApplyPatch
