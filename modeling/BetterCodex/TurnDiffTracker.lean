/-
# The tracker of a turn's changes (`core/src/turn_diff_tracker.rs`)

The tracker follows the deltas of the patches of a turn without reading the files again.
It keeps what the touched files were at the beginning of the turn, what they are now, and
where moved files came from.
-/
import BetterCodex.DeltaReplay
import BetterCodex.SortedMap

namespace TurnDiff

open RustStr Disk ApplyPatch SortedMap

variable {Path : Type}

/-! ## The tracker -/

/-- `TrackedPath`: an environment and a path in it. -/
abbrev TrackedPath (Path : Type) : Type := Text ×ₗ Path

structure TrackedContent where
  content : Text
  revision : ℕ
  deriving DecidableEq, Repr

structure DiffCacheKey (Path : Type) where
  leftPath : TrackedPath Path
  leftRevision : Option ℕ
  rightPath : TrackedPath Path
  rightRevision : Option ℕ
  deriving DecidableEq

structure TurnDiffTracker (Path : Type) where
  valid : Bool := true
  baselineByPath : List (TrackedPath Path × TrackedContent) := []
  currentByPath : List (TrackedPath Path × TrackedContent) := []
  originByCurrentPath : List (TrackedPath Path × TrackedPath Path) := []
  nextRevision : ℕ := 0
  renderedDiffs : List (DiffCacheKey Path × Option Text) := []
  unifiedDiff : Option Text := none

variable [LinearOrder Path]

namespace TurnDiffTracker

variable (t : TurnDiffTracker Path) (path : TrackedPath Path)

/-- The path is in one of the maps. -/
def isTracked : Bool :=
  (get path t.currentByPath).isSome || (get path t.baselineByPath).isSome

/-- The content becomes the baseline of a path that is not tracked yet. -/
def noteBaseline (content : Option Text) :
    TurnDiffTracker Path :=
  match content with
  | some content =>
    if t.isTracked path then t
    else { t with
      baselineByPath := insert path ⟨content, t.nextRevision⟩ t.baselineByPath
      nextRevision := t.nextRevision + 1 }
  | none => t

/-- The content becomes the current one. -/
def insertCurrent (content : Text) :
    TurnDiffTracker Path :=
  { t with
    currentByPath := insert path ⟨content, t.nextRevision⟩ t.currentByPath
    nextRevision := t.nextRevision + 1 }

def removeCurrent : TurnDiffTracker Path :=
  { t with currentByPath := erase path t.currentByPath }

def removeOrigin : TurnDiffTracker Path :=
  { t with originByCurrentPath := erase path t.originByCurrentPath }

def insertOrigin (path origin : TrackedPath Path) : TurnDiffTracker Path :=
  { t with originByCurrentPath := insert path origin t.originByCurrentPath }

def applyAdd (content : Text) (overwrittenContent : Option Text) : TurnDiffTracker Path :=
  ((t.removeOrigin path).noteBaseline path overwrittenContent).insertCurrent path content

/-- `apply_delete`; whether the path was tracked is asked before it is removed. -/
def applyDelete (content : Text) : TurnDiffTracker Path :=
  ((t.noteBaseline path (some content)).removeCurrent path).removeOrigin path

def applyUpdate (sourcePath : TrackedPath Path)
    (movePath : Option (TrackedPath Path)) (oldContent : Text)
    (overwrittenMoveContent : Option Text) (newContent : Text) : TurnDiffTracker Path :=
  let t := t.noteBaseline sourcePath (some oldContent)
  match movePath with
  | some destPath =>
    let t := t.noteBaseline destPath overwrittenMoveContent
    let origin := (get sourcePath t.originByCurrentPath).getD sourcePath
    let t := (t.removeOrigin sourcePath).removeCurrent sourcePath
    let t := (t.insertCurrent destPath newContent).removeOrigin destPath
    if destPath ≠ origin then t.insertOrigin destPath origin else t
  | none => t.insertCurrent sourcePath newContent

/-- `apply_change`, for a change whose paths have their environment. -/
def applyChange (c : AppliedPatchChange (TrackedPath Path)) : TurnDiffTracker Path :=
  match c.change with
  | .add content overwrittenContent => t.applyAdd c.path content overwrittenContent
  | .delete content => t.applyDelete c.path content
  | .update movePath oldContent overwrittenMoveContent newContent =>
    t.applyUpdate c.path movePath oldContent overwrittenMoveContent newContent

end TurnDiffTracker

omit [LinearOrder Path] in
/-- A change in an environment. -/
def changeWithin (environmentId : Text) (c : AppliedPatchChange Path) :
    AppliedPatchChange (TrackedPath Path) where
  path := toLex (environmentId, c.path)
  change := match c.change with
    | .add content overwrittenContent => .add content overwrittenContent
    | .delete content => .delete content
    | .update movePath oldContent overwrittenMoveContent newContent =>
      .update (movePath.map fun path => toLex (environmentId, path)) oldContent
        overwrittenMoveContent newContent

/-! ## The two maps -/

namespace TurnDiffTracker

variable (t : TurnDiffTracker Path) (path q : TrackedPath Path)

/-- The content of a path at the beginning of the turn, as the tracker has it. -/
def baselineContent (t : TurnDiffTracker Path) (path : TrackedPath Path) : Option Text :=
  (get path t.baselineByPath).map (·.content)

/-- The content of a path now, as the tracker has it. -/
def currentContent (t : TurnDiffTracker Path) (path : TrackedPath Path) : Option Text :=
  (get path t.currentByPath).map (·.content)

theorem isTracked_eq_false :
    t.isTracked path = false ↔ t.currentContent path = none ∧ t.baselineContent path = none := by
  simp [isTracked, currentContent, baselineContent]

@[simp] theorem baselineContent_removeCurrent : (t.removeCurrent path).baselineContent q = t.baselineContent q := rfl
@[simp] theorem baselineContent_insertCurrent (content : Text) :
    (t.insertCurrent path content).baselineContent q = t.baselineContent q := rfl

@[simp] theorem currentContent_insertCurrent_self (content : Text) :
    (t.insertCurrent path content).currentContent path = some content := by
  rw [currentContent, insertCurrent, get_insert_self]
  rfl

@[simp] theorem currentContent_removeCurrent_self : (t.removeCurrent path).currentContent path = none := by
  rw [currentContent, removeCurrent, get_erase_self]
  rfl

variable {path q}

theorem currentContent_insertCurrent_of_ne (h : q ≠ path) (content : Text) :
    (t.insertCurrent path content).currentContent q = t.currentContent q := by
  rw [currentContent, insertCurrent, get_insert_of_ne h]
  rfl

theorem currentContent_removeCurrent_of_ne (h : q ≠ path) :
    (t.removeCurrent path).currentContent q = t.currentContent q := by
  rw [currentContent, removeCurrent, get_erase_of_ne h]
  rfl

@[simp] theorem currentContent_noteBaseline (content : Option Text) :
    (t.noteBaseline path content).currentContent q = t.currentContent q := by
  cases content with
  | none => rfl
  | some content =>
    rw [noteBaseline]
    split_ifs <;> rfl

theorem baselineContent_noteBaseline_of_ne (h : q ≠ path) (content : Option Text) :
    (t.noteBaseline path content).baselineContent q = t.baselineContent q := by
  cases content with
  | none => rfl
  | some content =>
    rw [noteBaseline]
    split_ifs
    · rfl
    · rw [baselineContent, get_insert_of_ne h]
      rfl

theorem noteBaseline_of_isTracked (h : t.isTracked path = true) (content : Option Text) :
    t.noteBaseline path content = t := by
  cases content with
  | none => rfl
  | some content => exact if_pos h

theorem isTracked_noteBaseline (content : Text) : (t.noteBaseline path (some content)).isTracked path = true := by
  rw [noteBaseline]
  split_ifs with htracked
  · exact htracked
  · rw [isTracked, get_insert_self, Option.isSome_some, Bool.or_true]

theorem baselineContent_noteBaseline_of_not_isTracked (h : t.isTracked path = false)
    (content : Option Text) : (t.noteBaseline path content).baselineContent path = content := by
  cases content with
  | none => exact ((t.isTracked_eq_false path).1 h).2
  | some content =>
    rw [noteBaseline, if_neg (by simp [h]), baselineContent, get_insert_self]
    rfl

end TurnDiffTracker

/-! ## The maps and the files -/

/-- The path has its contents in the two maps, or it is in neither and has not changed. -/
def TracksAt (F₀ F : Files (TrackedPath Path)) (t : TurnDiffTracker Path) (path : TrackedPath Path) :
    Prop :=
  (F₀ path = t.baselineContent path ∧ F path = t.currentContent path) ∨
    (t.isTracked path = false ∧ F₀ path = F path)

/-- **The invariant**: `F₀` are the files at the beginning of the turn and `F` those of now. -/
def Tracks (F₀ F : Files (TrackedPath Path)) (t : TurnDiffTracker Path) : Prop :=
  ∀ path, TracksAt F₀ F t path

/-- A change that tells what it overwrites. -/
def ConsistentChange (F : Files (TrackedPath Path)) (c : AppliedPatchChange (TrackedPath Path)) : Prop :=
  match c.change with
  | .add _ overwrittenContent => overwrittenContent = F c.path
  | .delete content => F c.path = some content
  | .update none oldContent _ _ => F c.path = some oldContent
  | .update (some destPath) oldContent overwrittenMoveContent _ =>
    F c.path = some oldContent ∧ overwrittenMoveContent = F destPath

/-- Changes of files that nothing else touches. -/
def Consistent : Files (TrackedPath Path) → List (AppliedPatchChange (TrackedPath Path)) → Prop
  | _, [] => True
  | F, c :: changes => ConsistentChange F c ∧ Consistent (c.replay F) changes

section
variable {F₀ F F' : Files (TrackedPath Path)} {t t' : TurnDiffTracker Path}

theorem tracks_new (F : Files (TrackedPath Path)) : Tracks F F {} :=
  fun _ => Or.inr ⟨rfl, rfl⟩

theorem TracksAt.congr {path : TrackedPath Path} (h : TracksAt F₀ F t path)
    (hbaseline : t'.baselineContent path = t.baselineContent path)
    (hcurrent : t'.currentContent path = t.currentContent path) (hfile : F' path = F path) :
    TracksAt F₀ F' t' path := by
  rw [TracksAt, t'.isTracked_eq_false, hbaseline, hcurrent, hfile, ← t.isTracked_eq_false]
  exact h

/-- The first change of a path notes what was there. -/
theorem TracksAt.baseline_noteBaseline {path : TrackedPath Path} (h : TracksAt F₀ F t path) :
    F₀ path = (t.noteBaseline path (F path)).baselineContent path := by
  cases htracked : t.isTracked path with
  | true =>
    rw [t.noteBaseline_of_isTracked htracked]
    rcases h with ⟨hbaseline, -⟩ | ⟨hnot, -⟩
    · exact hbaseline
    · exact absurd (htracked.symm.trans hnot) nofun
  | false =>
    rw [t.baselineContent_noteBaseline_of_not_isTracked htracked]
    rcases h with ⟨hbaseline, hcurrent⟩ | ⟨-, hsame⟩
    · obtain ⟨hnone, hnone'⟩ := (t.isTracked_eq_false path).1 htracked
      rw [hbaseline, hcurrent, hnone, hnone']
    · exact hsame

open TurnDiffTracker

/-- Writing a file. -/
theorem Tracks.insertCurrent (h : Tracks F₀ F t) (path : TrackedPath Path) (content : Text) :
    Tracks F₀ (Function.update F path (some content))
      ((t.noteBaseline path (F path)).insertCurrent path content) := by
  intro q
  by_cases hq : q = path
  · subst hq
    refine Or.inl ⟨(h q).baseline_noteBaseline, ?_⟩
    rw [Function.update_self, currentContent_insertCurrent_self]
  · refine (h q).congr ?_ ?_ (Function.update_of_ne hq _ _)
    · exact t.baselineContent_noteBaseline_of_ne hq _
    · rw [currentContent_insertCurrent_of_ne _ hq, currentContent_noteBaseline]

/-- Removing a file. -/
theorem Tracks.removeCurrent (h : Tracks F₀ F t) (path : TrackedPath Path) :
    Tracks F₀ (Function.update F path none) ((t.noteBaseline path (F path)).removeCurrent path) := by
  intro q
  by_cases hq : q = path
  · subst hq
    refine Or.inl ⟨(h q).baseline_noteBaseline, ?_⟩
    rw [Function.update_self, currentContent_removeCurrent_self]
  · refine (h q).congr ?_ ?_ (Function.update_of_ne hq _ _)
    · exact t.baselineContent_noteBaseline_of_ne hq _
    · rw [currentContent_removeCurrent_of_ne _ hq, currentContent_noteBaseline]

/-- A moved path: both baselines are noted before the contents change. -/
theorem Tracks.move (h : Tracks F₀ F t) {source : TrackedPath Path} {oldContent : Text}
    (hold : F source = some oldContent) (dest : TrackedPath Path) (newContent : Text) :
    Tracks F₀ (Function.update (Function.update F source none) dest (some newContent))
      ((((t.noteBaseline source (some oldContent)).noteBaseline dest (F dest)).removeCurrent
        source).insertCurrent dest newContent) := by
  have hsource : F₀ source = (t.noteBaseline source (some oldContent)).baselineContent source := by
    rw [← hold]
    exact (h source).baseline_noteBaseline
  intro q
  by_cases hdest : q = dest
  · subst hdest
    refine Or.inl ⟨?_, ?_⟩
    · rw [baselineContent_insertCurrent, baselineContent_removeCurrent]
      by_cases hself : q = source
      · -- a path that is moved onto itself is tracked by now
        subst hself
        rwa [noteBaseline_of_isTracked _ (t.isTracked_noteBaseline oldContent)]
      · refine ((h q).congr ?_ ?_ rfl).baseline_noteBaseline
        · exact t.baselineContent_noteBaseline_of_ne hself _
        · exact t.currentContent_noteBaseline _
    · rw [Function.update_self, currentContent_insertCurrent_self]
  · by_cases hq : q = source
    · subst hq
      refine Or.inl ⟨?_, ?_⟩
      · rw [baselineContent_insertCurrent, baselineContent_removeCurrent,
          baselineContent_noteBaseline_of_ne _ hdest]
        exact hsource
      · rw [Function.update_of_ne hdest, Function.update_self,
          currentContent_insertCurrent_of_ne _ hdest,
          currentContent_removeCurrent_self]
    · refine (h q).congr ?_ ?_ ?_
      · rw [baselineContent_insertCurrent, baselineContent_removeCurrent,
          baselineContent_noteBaseline_of_ne _ hdest,
          baselineContent_noteBaseline_of_ne _ hq]
      · rw [currentContent_insertCurrent_of_ne _ hdest, currentContent_removeCurrent_of_ne _ hq,
          currentContent_noteBaseline, currentContent_noteBaseline]
      · rw [Function.update_of_ne hdest, Function.update_of_ne hq]

/-- **One change** keeps the invariant. -/
theorem Tracks.applyChange (h : Tracks F₀ F t) {c : AppliedPatchChange (TrackedPath Path)}
    (hc : ConsistentChange F c) : Tracks F₀ (c.replay F) (t.applyChange c) := by
  obtain ⟨path, change⟩ := c
  cases change with
  | add content overwrittenContent =>
    obtain rfl : overwrittenContent = F path := hc
    have hbefore : Tracks F₀ F (t.removeOrigin path) := h
    exact hbefore.insertCurrent path content
  | delete content =>
    have hfile : F path = some content := hc
    have hremoved := h.removeCurrent path
    rw [hfile] at hremoved
    exact hremoved
  | update movePath oldContent overwrittenMoveContent newContent =>
    cases movePath with
    | none =>
      have hfile : F path = some oldContent := hc
      have hwritten := h.insertCurrent path newContent
      rw [hfile] at hwritten
      exact hwritten
    | some destPath =>
      obtain ⟨hfile, rfl⟩ : F path = some oldContent ∧ overwrittenMoveContent = F destPath := hc
      have hmoved := h.move hfile destPath newContent
      -- the origins do not matter to the contents
      show Tracks F₀ _ (t.applyUpdate path (some destPath) oldContent (F destPath) newContent)
      unfold TurnDiffTracker.applyUpdate
      dsimp only
      split_ifs
      · exact hmoved
      · exact hmoved

/-- The run lemma: **any changes** that are consistent with the files. -/
theorem Tracks.applyChanges {changes : List (AppliedPatchChange (TrackedPath Path))}
    (h : Tracks F₀ F t) (hchanges : Consistent F changes) :
    Tracks F₀ (replay F changes) (changes.foldl TurnDiffTracker.applyChange t) := by
  induction changes generalizing F t with
  | nil => exact h
  | cons c changes ih => exact ih (h.applyChange hchanges.1) hchanges.2

end

end TurnDiff
