/-
# A disk whose operations may fail

A tree of files and directories together with a schedule of faults: each operation
first asks the schedule whether it fails this time, and then leaves the disk as it
was; otherwise it does what the tree allows.  What a program on such a disk does to
the files is read through `Disk.files`, the map from paths to contents.

Each operation has one specification (a triple over `Disk.files`), made for `mvcgen`:
reading changes no file, a write that is reported done has written exactly one file,
creating directories changes no file, and a removal that is reported done has removed
one file.  An operation that reports an error has changed no file.
-/
import Mathlib

open Std.Do

set_option mvcgen.warning false

namespace Disk

/-- The kinds of error that a program can tell apart. -/
inductive ErrorKind where
  | notFound
  | notADirectory
  | isADirectory
  | invalidInput
  | other
  deriving DecidableEq, Repr

/-- An error with its text. -/
structure IoError where
  kind : ErrorKind
  message : List Char
  deriving DecidableEq, Repr

/-- The errors that the tree itself gives rise to. -/
def IoError.missing : IoError := ⟨.notFound, "entity not found".toList⟩

@[inherit_doc IoError.missing]
def IoError.notDirectory : IoError := ⟨.notADirectory, "not a directory".toList⟩

@[inherit_doc IoError.missing]
def IoError.directory : IoError := ⟨.isADirectory, "is a directory".toList⟩

/-- The contents of a file: a text. -/
abbrev Content := List Char

/-- What stands at a path. -/
inductive Node where
  | file (contents : Content)
  | directory
  deriving DecidableEq, Repr

/-- What can be asked of a path without reading it. -/
structure Metadata where
  isFile : Bool
  isDirectory : Bool
  isSymlink : Bool
  deriving DecidableEq, Repr

/-- How paths are nested: the directory a path stands in, and all directories on the
way to a path, with the path itself. -/
class Nested (Path : Type) where
  parent : Path → Option Path
  ancestors : Path → List Path

/-- The tree, and for each operation to come the fault it will meet, if any. -/
structure State (Path : Type) where
  nodes : Path → Option Node
  faults : ℕ → Option IoError

/-- A program on a disk. -/
abbrev Fs (Path : Type) := StateM (State Path)

variable {Path α : Type}

/-! ## The operations -/

/-- One operation: the next fault of the schedule, or what `act` does to the tree. -/
def attempt (act : (Path → Option Node) →
    Except IoError (α × (Path → Option Node))) : Fs Path (Except IoError α) := fun d =>
  let rest : ℕ → Option IoError := fun n => d.faults (n + 1)
  match d.faults 0 with
  | some e => (.error e, ⟨d.nodes, rest⟩)
  | none =>
    match act d.nodes with
    | .ok (a, nodes) => (.ok a, ⟨nodes, rest⟩)
    | .error e => (.error e, ⟨d.nodes, rest⟩)

/-- The metadata of a node.  There are no links on this disk. -/
def Node.metadata : Node → Metadata
  | .file _ => ⟨true, false, false⟩
  | .directory => ⟨false, true, false⟩

/-- The metadata at a path. -/
def getMetadata (p : Path) : Fs Path (Except IoError Metadata) :=
  attempt fun nodes =>
    match nodes p with
    | some n => .ok (n.metadata, nodes)
    | none => .error .missing

/-- The contents of the file at a path. -/
def readFile (p : Path) : Fs Path (Except IoError Content) :=
  attempt fun nodes =>
    match nodes p with
    | some (.file c) => .ok (c, nodes)
    | some .directory => .error .directory
    | none => .error .missing

section

variable [DecidableEq Path]

/-- Write the file at a path, whose directory must exist. -/
def writeFile [Nested Path] (p : Path) (c : Content) : Fs Path (Except IoError Unit) :=
  attempt fun nodes =>
    match nodes p with
    | some .directory => .error .directory
    | _ =>
      match (Nested.parent p).map nodes with
      | some none => .error .missing
      | some (some (.file _)) => .error .notDirectory
      | _ => .ok ((), Function.update nodes p (some (.file c)))

/-- The path is a file. -/
def IsFile (nodes : Path → Option Node) (p : Path) : Bool :=
  match nodes p with
  | some (.file _) => true
  | _ => false

/-- Create a directory and all missing directories on the way to it. -/
def createDirectoryAll [Nested Path] (p : Path) : Fs Path (Except IoError Unit) :=
  attempt fun nodes =>
    if (Nested.ancestors p).any (IsFile nodes) then .error .notDirectory
    else .ok ((), fun q => if q ∈ Nested.ancestors p then some .directory else nodes q)

/-- Remove the file at a path. -/
def removeFile (p : Path) : Fs Path (Except IoError Unit) :=
  attempt fun nodes =>
    match nodes p with
    | some (.file _) => .ok ((), Function.update nodes p none)
    | some .directory => .error .directory
    | none => .error .missing

end

/-! ## From a triple to the end of a run -/

/-- The end of a run: `Q` of a result and the two states, or `E` of an error and them. -/
def EndsIn {ε σ τ : Type} (Q : α → σ → τ → Prop) (E : ε → σ → τ → Prop) :
    (Except ε α × σ) × τ → Prop
  | ((.ok a, s), t) => Q a s t
  | ((.error e, s), t) => E e s t

/-- A triple about a program with errors over two states says how each run of it ends. -/
theorem run_of_triple {ε σ τ : Type} (m : ExceptT ε (StateT σ (StateM τ)) α)
    {P : σ → τ → Prop} {Q : α → σ → τ → Prop} {E : ε → σ → τ → Prop} (h : ⦃fun s t => ⌜P s t⌝⦄ m
      ⦃post⟨fun a s t => ⌜Q a s t⌝, fun e s t => ⌜E e s t⌝⟩⦄)
    (s : σ) (t : τ) (hp : P s t) : EndsIn Q E ((m.run.run s).run t) := by
  have hwp := h s t hp
  rcases hrun : (m.run.run s).run t with ⟨⟨r, s'⟩, t'⟩
  simp only [wp, PredTrans.apply, PredTrans.pushExcept, PredTrans.pushArg, StateT.run, pure,
    PredTrans.pure] at hwp
  simp only [StateT.run] at hrun
  rw [hrun] at hwp
  cases r with
  | ok a => exact hwp
  | error e => exact hwp

/-- The same over one state, for a run that succeeds. -/
theorem run_of_triple_ok {ε τ : Type} (m : ExceptT ε (StateM τ) α) {P : τ → Prop}
    {Q : α → τ → Prop} {E : ε → τ → Prop}
    (h : ⦃fun t => ⌜P t⌝⦄ m ⦃post⟨fun a t => ⌜Q a t⌝, fun e t => ⌜E e t⌝⟩⦄)
    (t : τ) (hp : P t) {a : α} (hok : (m.run.run t).1 = .ok a) : Q a (m.run.run t).2 := by
  have hwp := h t hp
  rcases hrun : m.run.run t with ⟨r, t'⟩
  rw [hrun] at hok
  obtain rfl : r = .ok a := hok
  simp only [wp, PredTrans.apply, PredTrans.pushExcept, PredTrans.pushArg, StateT.run, pure,
    PredTrans.pure] at hwp
  simp only [StateT.run] at hrun
  rw [hrun] at hwp
  exact hwp

/-! ## The files -/

/-- A map from paths to the contents of the files. -/
abbrev Files (Path : Type) := Path → Option Content

/-- The contents of a node, if it is a file. -/
def Node.contents? : Node → Option Content
  | .file c => some c
  | .directory => none

/-- The files of a tree. -/
def filesOf (nodes : Path → Option Node) : Files Path :=
  fun p => (nodes p).bind Node.contents?

/-- The files of the disk. -/
def State.files (d : State Path) : Files Path := filesOf d.nodes

/-- What an operation has done that reports `r`: either its effect, or nothing. -/
def Outcome (done : α → Prop) (nothing : Prop) : Except IoError α → Prop
  | .ok a => done a
  | .error _ => nothing

@[simp]
theorem outcome_ok (done : α → Prop) (nothing : Prop) (a : α) :
    Outcome done nothing (.ok a) = done a := rfl

@[simp]
theorem outcome_error (done : α → Prop) (nothing : Prop) (e : IoError) :
    Outcome done nothing (.error e) = nothing := rfl

variable {act : (Path → Option Node) → Except IoError (α × (Path → Option Node))}

/-- **One operation.**  It reports an error and has changed no file, or it reports a
result and has changed the files as `act` says. -/
theorem attempt_spec {R : Files Path → α → Files Path → Prop}
    (hact : ∀ nodes a nodes', act nodes = .ok (a, nodes') → R (filesOf nodes) a (filesOf nodes'))
    (F : Files Path) :
    ⦃fun d => ⌜d.files = F⌝⦄ attempt act
    ⦃⇓ r d => ⌜Outcome (fun a => R F a d.files) (d.files = F) r⌝⦄ := by
  rintro d rfl
  show Outcome (fun a => R d.files a (attempt act d).2.files)
    ((attempt act d).2.files = d.files) (attempt act d).1
  unfold attempt
  cases d.faults 0 with
  | some e => rfl
  | none =>
    cases h : act d.nodes with
    | error e => rfl
    | ok r => exact hact _ _ _ h

/-- An operation that only looks: whatever it reports, it has changed no file. -/
theorem attempt_look_spec {Q : Files Path → α → Prop}
    (hact : ∀ nodes a nodes', act nodes = .ok (a, nodes') →
      filesOf nodes' = filesOf nodes ∧ Q (filesOf nodes) a) (F : Files Path) :
    ⦃fun d => ⌜d.files = F⌝⦄ attempt act
    ⦃⇓ r d => ⌜d.files = F ∧ ∀ a, r = .ok a → Q F a⌝⦄ := by
  rintro d rfl
  have hout : Outcome _ _ (attempt act d).1 :=
    attempt_spec (R := fun F a F' => F' = F ∧ Q F a) hact d.files d rfl
  show (attempt act d).2.files = d.files ∧ ∀ a, (attempt act d).1 = .ok a → Q d.files a
  cases hr : (attempt act d).1 with
  | ok a =>
    rw [hr, outcome_ok] at hout
    refine ⟨hout.1, ?_⟩
    rintro b hb
    exact Except.ok.inj hb ▸ hout.2
  | error e =>
    rw [hr, outcome_error] at hout
    exact ⟨hout, by simp⟩

/-- An operation that changes no file, whatever it reports. -/
theorem attempt_quiet_spec
    (hact : ∀ nodes a nodes', act nodes = .ok (a, nodes') → filesOf nodes' = filesOf nodes)
    (F : Files Path) : ⦃fun d => ⌜d.files = F⌝⦄ attempt act ⦃⇓ _ d => ⌜d.files = F⌝⦄ := by
  intro d hd
  have hlook : _ ∧ _ := attempt_look_spec (Q := fun _ _ => True)
    (fun nodes a nodes' h => ⟨hact nodes a nodes' h, trivial⟩) F d hd
  exact hlook.1

/-- Asking for metadata changes no file. -/
@[spec]
theorem getMetadata_spec (p : Path) (F : Files Path) :
    ⦃fun d => ⌜d.files = F⌝⦄ getMetadata p ⦃⇓ _ d => ⌜d.files = F⌝⦄ := by
  apply attempt_quiet_spec
  intro nodes a nodes' h
  cases hp : nodes p with
  | none => simp [hp] at h
  | some n =>
    simp only [hp, Except.ok.injEq, Prod.mk.injEq] at h
    rw [h.2]

/-- Reading changes no file and gives the contents of a file. -/
@[spec]
theorem readFile_spec (p : Path) (F : Files Path) :
    ⦃fun d => ⌜d.files = F⌝⦄ readFile p
    ⦃⇓ r d => ⌜d.files = F ∧ ∀ c, r = .ok c → F p = some c⌝⦄ := by
  apply attempt_look_spec (Q := fun F c => F p = some c)
  intro nodes c nodes' h
  rcases hp : nodes p with _ | ⟨c'⟩ | _
  · simp [hp] at h
  · simp only [hp, Except.ok.injEq, Prod.mk.injEq] at h
    obtain ⟨rfl, rfl⟩ := h
    exact ⟨rfl, by simp [filesOf, hp, Node.contents?]⟩
  · simp [hp] at h

section

variable [DecidableEq Path]

theorem filesOf_update (nodes : Path → Option Node) (p : Path) (n : Option Node) :
    filesOf (Function.update nodes p n)
      = Function.update (filesOf nodes) p (n.bind Node.contents?) := by
  funext q
  by_cases hq : q = p
  · subst hq
    simp [filesOf]
  · simp [filesOf, hq]

/-- A write that is reported done has written this file and no other. -/
@[spec]
theorem writeFile_spec [Nested Path] (p : Path) (c : Content) (F : Files Path) :
    ⦃fun d => ⌜d.files = F⌝⦄ writeFile p c
    ⦃⇓ r d => ⌜Outcome (fun _ => d.files = Function.update F p (some c)) (d.files = F) r⌝⦄ := by
  apply attempt_spec (R := fun F _ F' => F' = Function.update F p (some c))
  intro nodes a nodes' h
  have hnodes : nodes' = Function.update nodes p (some (.file c)) := by
    split at h
    · simp at h
    · split at h <;> simp_all
  rw [hnodes]
  exact filesOf_update nodes p _

/-- Creating directories changes no file. -/
@[spec]
theorem createDirectoryAll_spec [Nested Path] (p : Path) (F : Files Path) :
    ⦃fun d => ⌜d.files = F⌝⦄ createDirectoryAll p ⦃⇓ _ d => ⌜d.files = F⌝⦄ := by
  apply attempt_quiet_spec
  intro nodes a nodes' h
  by_cases hfile : (Nested.ancestors p).any (IsFile nodes)
  · simp [hfile] at h
  · rw [if_neg hfile] at h
    simp only [Except.ok.injEq, Prod.mk.injEq] at h
    rw [← h.2]
    funext q
    by_cases hq : q ∈ Nested.ancestors p
    · -- a directory on the way was no file before either
      have hno : IsFile nodes q = false := by
        simpa using fun h' => hfile (List.any_eq_true.2 ⟨q, hq, h'⟩)
      rcases hn : nodes q with _ | ⟨c⟩ | _
      · simp [filesOf, hq, hn, Node.contents?]
      · simp [IsFile, hn] at hno
      · simp [filesOf, hq, hn, Node.contents?]
    · simp [filesOf, hq]

/-- A removal that is reported done has removed this file and no other. -/
@[spec]
theorem removeFile_spec (p : Path) (F : Files Path) :
    ⦃fun d => ⌜d.files = F⌝⦄ removeFile p
    ⦃⇓ r d => ⌜Outcome (fun _ => d.files = Function.update F p none) (d.files = F) r⌝⦄ := by
  apply attempt_spec (R := fun F _ F' => F' = Function.update F p none)
  intro nodes a nodes' h
  have hnodes : nodes' = Function.update nodes p none := by
    split at h <;> simp_all
  rw [hnodes]
  exact filesOf_update nodes p none

end

end Disk
