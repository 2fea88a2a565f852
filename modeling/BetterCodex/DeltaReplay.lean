/-
# What the delta of an applied patch tells (`apply-patch/src/lib.rs`)

The delta of a patch is read by replaying its changes in order, as the tracker of a turn
does (`core/src/turn_diff_tracker.rs`).  This module says what each hunk does to the
files (`Hunk.op`) and what it adds to the delta (`Explains`), with one triple for
each function of the model, and draws two conclusions for whole runs: what the files are
after a run that succeeds, and when the replay of the delta gives them.
-/
import BetterCodex.ApplyHunks
import BetterCodex.MapOps

open RustStr Disk MapOps Std.Do

set_option mvcgen.warning false

namespace ApplyPatch

variable {Path : Type}

/-! ## Replaying a delta -/

section Replay

variable [DecidableEq Path]

/-- `TurnDiffTracker::apply_change`, on the files: a moved file leaves its source before
it arrives at its destination. -/
def AppliedPatchChange.replay (F : Files Path) (c : AppliedPatchChange Path) : Files Path :=
  match c.change with
  | .add content _ => Function.update F c.path (some content)
  | .delete _ => Function.update F c.path none
  | .update none _ _ newContent => Function.update F c.path (some newContent)
  | .update (some dest) _ _ newContent =>
    Function.update (Function.update F c.path none) dest (some newContent)

/-- The changes of a delta, replayed in order. -/
def replay (F : Files Path) (changes : List (AppliedPatchChange Path)) : Files Path :=
  changes.foldl AppliedPatchChange.replay F

/-- From one state to a later one the delta grew by changes that, if it is exact in the
end, tell what happened to the files. -/
def Explains (δ : AppliedPatchDelta Path) (F : Files Path) (δ' : AppliedPatchDelta Path)
    (F' : Files Path) : Prop :=
  δ'.exact = true → δ.exact = true ∧ ∃ cs, δ'.changes = δ.changes ++ cs ∧ replay F cs = F'

/-- The delta has the same changes and is not more exact. -/
def Weakens (δ δ' : AppliedPatchDelta Path) : Prop :=
  δ'.changes = δ.changes ∧ (δ'.exact = true → δ.exact = true)

omit [DecidableEq Path] in
theorem Weakens.trans {δ₁ δ₂ δ₃ : AppliedPatchDelta Path} (h₁ : Weakens δ₁ δ₂)
    (h₂ : Weakens δ₂ δ₃) : Weakens δ₁ δ₃ :=
  ⟨h₂.1.trans h₁.1, fun h => h₁.2 (h₂.2 h)⟩

omit [DecidableEq Path] in
theorem weakens_andExact (δ : AppliedPatchDelta Path) (b : Bool) :
    Weakens δ ⟨δ.changes, δ.exact && b⟩ :=
  ⟨rfl, fun h => (Bool.and_eq_true_iff.1 h).1⟩

variable {δ δ' : AppliedPatchDelta Path}

theorem Weakens.explains (h : Weakens δ δ') (F : Files Path) : Explains δ F δ' F :=
  fun hexact => ⟨h.2 hexact, [], by rw [h.1, List.append_nil], rfl⟩

theorem explains_of_inexact (F F' : Files Path) (h : δ'.exact = false) : Explains δ F δ' F' := by
  intro hexact
  rw [h] at hexact
  contradiction

theorem Weakens.explains_push (h : Weakens δ δ') (F : Files Path) (c : AppliedPatchChange Path) :
    Explains δ F ⟨δ'.changes ++ [c], δ'.exact⟩ (c.replay F) :=
  fun hexact => ⟨h.2 hexact, [c], by rw [h.1], rfl⟩

/-- Deltas that explain two successive changes explain both together. -/
theorem Explains.trans {δ₁ δ₂ δ₃ : AppliedPatchDelta Path} {F₁ F₂ F₃ : Files Path}
    (h₁ : Explains δ₁ F₁ δ₂ F₂) (h₂ : Explains δ₂ F₂ δ₃ F₃) : Explains δ₁ F₁ δ₃ F₃ := by
  intro hexact
  obtain ⟨hexact₂, cs₂, hcs₂, hF₂⟩ := h₂ hexact
  obtain ⟨hexact₁, cs₁, hcs₁, hF₁⟩ := h₁ hexact₂
  refine ⟨hexact₁, cs₁ ++ cs₂, ?_, ?_⟩
  · rw [hcs₂, hcs₁, List.append_assoc]
  · rw [replay, List.foldl_append]
    rw [replay] at hF₁ hF₂
    rw [hF₁, hF₂]

end Replay

/-! ## The small steps -/

theorem andExact_spec (b : Bool) (D : AppliedPatchDelta Path) (F : Files Path) :
    ⦃fun δ d => ⌜δ = D ∧ d.files = F⌝⦄ andExact Path b
    ⦃⇓ _ δ d => ⌜δ = ⟨D.changes, D.exact && b⟩ ∧ d.files = F⌝⦄ := by
  rintro δ d ⟨rfl, rfl⟩
  exact ⟨rfl, rfl⟩

theorem pushChange_spec (c : AppliedPatchChange Path) (D : AppliedPatchDelta Path)
    (F : Files Path) :
    ⦃fun δ d => ⌜δ = D ∧ d.files = F⌝⦄ pushChange c
    ⦃⇓ _ δ d => ⌜δ = ⟨D.changes ++ [c], D.exact⟩ ∧ d.files = F⌝⦄ := by
  rintro δ d ⟨rfl, rfl⟩
  exact ⟨rfl, rfl⟩

theorem setChange_spec (i : ℕ) (c : AppliedPatchChange Path) (D : AppliedPatchDelta Path)
    (F : Files Path) :
    ⦃fun δ d => ⌜δ = D ∧ d.files = F⌝⦄ setChange i c
    ⦃⇓ _ δ d => ⌜δ = ⟨D.changes.set i c, D.exact⟩ ∧ d.files = F⌝⦄ := by
  rintro δ d ⟨rfl, rfl⟩
  exact ⟨rfl, rfl⟩

variable (p : Path)

theorem noteExistingPathDeltaSupport_spec (D : AppliedPatchDelta Path) (F : Files Path) :
    ⦃fun δ d => ⌜δ = D ∧ d.files = F⌝⦄ noteExistingPathDeltaSupport p
    ⦃⇓ _ δ d => ⌜Weakens D δ ∧ d.files = F⌝⦄ := by
  mvcgen [noteExistingPathDeltaSupport, andExact_spec]
  all_goals simp_all [Weakens]

theorem readOptionalFileTextForDelta_spec (D : AppliedPatchDelta Path) (F : Files Path) :
    ⦃fun δ d => ⌜δ = D ∧ d.files = F⌝⦄ readOptionalFileTextForDelta p
    ⦃⇓ _ δ d => ⌜Weakens D δ ∧ d.files = F⌝⦄ := by
  mvcgen [readOptionalFileTextForDelta, noteExistingPathDeltaSupport_spec, andExact_spec]
  all_goals simp_all [Weakens]

theorem ensureNotDirectory_spec (F : Files Path) :
    ⦃fun d => ⌜d.files = F⌝⦄ ensureNotDirectory p ⦃⇓ _ d => ⌜d.files = F⌝⦄ := by
  mvcgen [ensureNotDirectory]
  all_goals simp_all

theorem removeFailureWasSideEffectFree_spec (expected : Option Text) (F : Files Path) :
    ⦃fun d => ⌜d.files = F⌝⦄ removeFailureWasSideEffectFree p expected
    ⦃⇓ _ d => ⌜d.files = F⌝⦄ := by
  mvcgen [removeFailureWasSideEffectFree]
  all_goals simp_all

variable [DecidableEq Path]

/-- A removal that fails has changed no file and added nothing to the delta. -/
theorem removeOriginal_spec (context : Text) (expected : Option Text) (D : AppliedPatchDelta Path)
    (F : Files Path) :
    ⦃fun δ d => ⌜δ = D ∧ d.files = F⌝⦄ removeOriginal p context expected
    ⦃post⟨fun _ δ d => ⌜δ = D ∧ d.files = Function.update F p none⌝,
      fun _ δ d => ⌜Weakens D δ ∧ d.files = F⌝⟩⦄ := by
  mvcgen [removeOriginal, withContext, ensureNotDirectory_spec,
    removeFailureWasSideEffectFree_spec, andExact_spec]
  all_goals simp_all [Weakens]

variable [PathUri Path] (contents : Text)

theorem writeFileWithMissingParentRetry_spec (F : Files Path) :
    ⦃fun d => ⌜d.files = F⌝⦄ writeFileWithMissingParentRetry p contents
    ⦃⇓ r d => ⌜∀ u, r = .ok u → d.files = Function.update F p (some contents)⌝⦄ := by
  mvcgen [writeFileWithMissingParentRetry]
  all_goals simp_all

omit [DecidableEq Path] in
theorem deriveNewContentsFromChunks_spec (chunks : List UpdateFileChunk) (F : Files Path) :
    ⦃fun d => ⌜d.files = F⌝⦄ deriveNewContentsFromChunks p chunks
    ⦃post⟨fun r d => ⌜d.files = F ∧ F p = some r.1 ∧
        deriveNewContents (inferredNativePathString p) r.1 chunks = .ok r.2⌝,
      fun _ d => ⌜d.files = F⌝⟩⦄ := by
  mvcgen [deriveNewContentsFromChunks]
  all_goals simp_all

/-! ## The arms of the loop -/

/-- An add hunk writes one file. -/
theorem applyAdd_spec (D : AppliedPatchDelta Path) (F : Files Path) :
    ⦃fun δ d => ⌜δ = D ∧ d.files = F⌝⦄ applyAdd p contents
    ⦃post⟨fun _ δ d => ⌜d.files = Function.update F p (some contents) ∧
        Explains D F δ d.files⌝,
      fun _ δ d => ⌜Explains D F δ d.files⌝⟩⦄ := by
  mvcgen [applyAdd, tryWrite, readOptionalFileTextForDelta_spec,
    writeFileWithMissingParentRetry_spec, andExact_spec, pushChange_spec]
  case vc1 =>
    rename_i hpre old δ₁ _ hread _ _ hwrite u hr _ _ _
    obtain ⟨rfl, rfl⟩ := hpre
    have hfiles := hwrite u hr
    rw [hread.2] at hfiles
    rintro rfl hd
    rw [hd, hfiles]
    exact ⟨rfl, hread.1.explains_push _ ⟨p, .add contents old⟩⟩
  case vc2 =>
    -- the write failed, so the delta is inexact from here on
    rename_i hδ
    exact explains_of_inexact _ _ (by simp [hδ.1])

/-- A delete hunk removes one file. -/
theorem applyDelete_spec (D : AppliedPatchDelta Path) (F : Files Path) :
    ⦃fun δ d => ⌜δ = D ∧ d.files = F⌝⦄ applyDelete p
    ⦃post⟨fun _ δ d => ⌜d.files = Function.update F p none ∧ Explains D F δ d.files⌝,
      fun _ δ d => ⌜Explains D F δ d.files⌝⟩⦄ := by
  mvcgen [applyDelete, noteExistingPathDeltaSupport_spec, removeOriginal_spec, andExact_spec,
    pushChange_spec]
  case vc1 =>
    rename_i hpre _ δ₁ _ hnote r content _ hread _ _ _ hδ _ c _ _ _ hremove _ _ _
    obtain ⟨rfl, rfl⟩ := hpre
    obtain ⟨rfl, hd⟩ := hδ
    obtain ⟨rfl, hfiles⟩ := hremove
    rw [hd, hread.1, hnote.2] at hfiles
    rintro rfl hd'
    rw [hd', hfiles]
    exact ⟨rfl, (hnote.1.trans (weakens_andExact δ₁ _)).explains_push _ ⟨p, .delete c⟩⟩
  case vc2 =>
    -- contents that could not be read are not recorded: the delta is inexact
    rename_i hpre _ _ _ hnote r content _ hread _ _ _ hδ _ hnone _ _ hremove
    obtain ⟨rfl, rfl⟩ := hpre
    obtain ⟨rfl, hd⟩ := hδ
    obtain ⟨rfl, hfiles⟩ := hremove
    rw [hd, hread.1, hnote.2] at hfiles
    exact ⟨hfiles, explains_of_inexact _ _ (by simp [hnone])⟩
  case vc3 =>
    rename_i hpre _ δ₁ _ hnote r content _ hread _ _ _ hδ _ _ _
    obtain ⟨rfl, rfl⟩ := hpre
    obtain ⟨rfl, hd⟩ := hδ
    intro hweak hd'
    rw [hd', hd, hread.1, hnote.2]
    exact ((hnote.1.trans (weakens_andExact δ₁ _)).trans hweak).explains _

/-- A move writes the destination and removes the source. -/
theorem applyMove_spec (dest : Path) (old new : Text) (D : AppliedPatchDelta Path)
    (F : Files Path) :
    ⦃fun δ d => ⌜δ = D ∧ d.files = F⌝⦄ applyMove p dest old new
    ⦃post⟨fun _ δ d => ⌜d.files = Function.update (Function.update F dest (some new)) p none ∧
        (dest ≠ p → Explains D F δ d.files)⌝,
      fun _ δ d => ⌜Explains D F δ d.files⌝⟩⦄ := by
  mvcgen [applyMove, tryWrite, readOptionalFileTextForDelta_spec, getThe,
    writeFileWithMissingParentRetry_spec, andExact_spec, pushChange_spec, setChange_spec,
    removeOriginal_spec]
  case vc1 =>
    rename_i hpre oldDest δ₁ _ hread _ _ hwrite u hr _ _ _ _ hpush _ _ _ hremove _ _ _
    obtain ⟨rfl, rfl⟩ := hpre
    have hfiles := hwrite u hr
    obtain ⟨rfl, hd⟩ := hpush
    obtain ⟨rfl, hd'⟩ := hremove
    rw [hd, hfiles, hread.2] at hd'
    rintro rfl hd''
    rw [hd'', hd']
    refine ⟨rfl, fun hne => ?_⟩
    -- the recorded write of the destination is replaced by the move
    have hset : ∀ a b : AppliedPatchChange Path,
        (δ₁.changes ++ [a]).set δ₁.changes.length b = δ₁.changes ++ [b] := by simp
    rw [hset, Function.update_comm hne]
    exact hread.1.explains_push _ ⟨p, .update (some dest) old oldDest new⟩
  case vc2 =>
    -- the source could not be removed: the destination alone was written
    rename_i hpre oldDest _ _ hread _ _ hwrite u hr _ _ _ _ hpush _ _ _
    obtain ⟨rfl, rfl⟩ := hpre
    have hfiles := hwrite u hr
    obtain ⟨rfl, hd⟩ := hpush
    intro hweak hd'
    rw [hd', hd, hfiles, hread.2]
    exact (hread.1.explains_push _ ⟨dest, .add new oldDest⟩).trans (hweak.explains _)
  case vc3 =>
    rename_i hδ
    exact explains_of_inexact _ _ (by simp [hδ.1])

/-- An update in place writes one file. -/
theorem applyRewrite_spec (old new : Text) (D : AppliedPatchDelta Path) (F : Files Path) :
    ⦃fun δ d => ⌜δ = D ∧ d.files = F⌝⦄ applyRewrite p old new
    ⦃post⟨fun _ δ d => ⌜d.files = Function.update F p (some new) ∧ Explains D F δ d.files⌝,
      fun _ δ d => ⌜Explains D F δ d.files⌝⟩⦄ := by
  mvcgen [applyRewrite, tryWrite, andExact_spec, pushChange_spec]
  case vc1 =>
    rename_i δ₀ _ hpre _ _ _ _ hwrite _ _ _
    obtain ⟨rfl, rfl⟩ := hpre
    rw [outcome_ok] at hwrite
    rintro rfl hd
    rw [hd, hwrite]
    have hself : Weakens δ₀ δ₀ := ⟨rfl, id⟩
    exact ⟨rfl, hself.explains_push _ ⟨p, .update none old none new⟩⟩
  case vc2 =>
    rename_i hδ
    exact explains_of_inexact _ _ (by simp [hδ.1])

/-! ## What a hunk does to the files -/

/-- The new contents that the chunks give for a file with the contents `old`. -/
def chunkEdit (p : Path) (chunks : List UpdateFileChunk) (old : Text) : Option Text :=
  (deriveNewContents (inferredNativePathString p) old chunks).toOption

/-- The operation of an update hunk for `p`.  A move writes the destination first and
removes the source afterwards, as `Op.run` does. -/
def updateOp (cwd p : Path) (movePath : Option Text) (chunks : List UpdateFileChunk) :
    Option (Op Path Text) :=
  match movePath with
  | none => some (.rewrite p (chunkEdit p chunks))
  | some dest => (PathUri.join cwd dest).toOption.map fun q => .move p q (chunkEdit p chunks)

/-- The operation of a hunk on the files; none if one of its paths cannot be resolved. -/
def Hunk.op (cwd : Path) (h : Hunk) : Option (Op Path Text) :=
  (h.resolvePath cwd).toOption.bind fun p =>
    match h with
    | .addFile _ contents => some (.put p contents)
    | .deleteFile _ => some (.drop p)
    | .updateFile _ movePath chunks => updateOp cwd p movePath chunks

/-- The hunk moves a file onto itself: source and destination are one path. -/
def Hunk.movesOntoItself (cwd : Path) : Hunk → Bool
  | .updateFile path (some dest) _ =>
    match PathUri.join cwd path, PathUri.join cwd dest with
    | .ok p, .ok q => decide (p = q)
    | _, _ => false
  | _ => false

variable (cwd : Path)

/-- An update hunk, with or without a move. -/
theorem applyUpdate_spec (p : Path) (movePath : Option Text) (chunks : List UpdateFileChunk)
    (D : AppliedPatchDelta Path) (F : Files Path) :
    ⦃fun δ d => ⌜δ = D ∧ d.files = F⌝⦄ applyUpdate cwd p movePath chunks
    ⦃post⟨fun _ δ d => ⌜(updateOp cwd p movePath chunks).bind (Op.run F) = some d.files ∧
        ((∀ dest, movePath = some dest → PathUri.join cwd dest ≠ .ok p) →
          Explains D F δ d.files)⌝,
      fun _ δ d => ⌜Explains D F δ d.files⌝⟩⦄ := by
  mvcgen [applyUpdate, joinPath, applyMove_spec, applyRewrite_spec,
    noteExistingPathDeltaSupport_spec, deriveNewContentsFromChunks_spec]
  case vc1 =>
    rename_i hpre _ _ _ hnote r dest _ _ hderive q hq _ _ _
    obtain ⟨rfl, rfl⟩ := hpre
    rw [hnote.2] at hderive
    rw [hderive.1]
    intro hfiles hexplains
    refine ⟨?_, fun haway => ?_⟩
    · simp [updateOp, Op.run, chunkEdit, hderive.2.1, hderive.2.2, hq, hfiles, Except.toOption]
    · refine (hnote.1.explains _).trans (hexplains ?_)
      rintro rfl
      exact haway dest rfl hq
  case vc4 =>
    rename_i hpre _ _ _ hnote r _ _ hderive _ _ _
    obtain ⟨rfl, rfl⟩ := hpre
    rw [hnote.2] at hderive
    rw [hderive.1]
    intro hfiles hexplains
    refine ⟨?_, fun _ => (hnote.1.explains _).trans hexplains⟩
    simp [updateOp, Op.run, chunkEdit, hderive.2.1, hderive.2.2, hfiles, Except.toOption]
  -- in the other cases the hunk fails, after a move or a rewrite was begun (`vc2`, `vc5`) or before
  case vc2 =>
    rename_i hpre _ _ _ hnote _ _ _ _ hderive _ _ _ _ _
    obtain ⟨rfl, rfl⟩ := hpre
    rw [hderive.1, hnote.2]
    exact (hnote.1.explains _).trans
  case vc5 =>
    rename_i hpre _ _ _ hnote _ _ _ hderive _ _ _
    obtain ⟨rfl, rfl⟩ := hpre
    rw [hderive.1, hnote.2]
    exact (hnote.1.explains _).trans
  case vc3 =>
    rename_i hpre _ _ _ hnote _ _ _ _ hderive _ _
    obtain ⟨rfl, rfl⟩ := hpre
    rw [hderive.1, hnote.2]
    exact hnote.1.explains _
  case vc6 =>
    rename_i hpre _ _ _ hnote _ _ hd
    obtain ⟨rfl, rfl⟩ := hpre
    rw [hd, hnote.2]
    exact hnote.1.explains _

/-- **One hunk.**  A hunk that succeeds has had its effect on the files, and the delta
explains it unless a file is moved onto itself.  The delta also explains what a hunk
that fails has done. -/
theorem applyHunk_spec (affected : AffectedPaths) (h : Hunk) (D : AppliedPatchDelta Path)
    (F : Files Path) :
    ⦃fun δ d => ⌜δ = D ∧ d.files = F⌝⦄ applyHunk cwd affected h
    ⦃post⟨fun _ δ d => ⌜(h.op cwd).bind (Op.run F) = some d.files ∧
        (h.movesOntoItself cwd = false → Explains D F δ d.files)⌝,
      fun _ δ d => ⌜Explains D F δ d.files⌝⟩⦄ := by
  mvcgen [applyHunk, joinPath, applyAdd_spec, applyDelete_spec, applyUpdate_spec]
  case vc1 =>
    rename_i hpre p hp _ _ _ hh _ _ _ hdone
    obtain ⟨rfl, rfl⟩ := hpre
    subst hh
    exact ⟨by simp [Hunk.op, Op.run, hp, Except.toOption, hdone.1], fun _ => hdone.2⟩
  case vc3 =>
    rename_i hpre p hp _ _ hh _ _ _ hdone
    obtain ⟨rfl, rfl⟩ := hpre
    subst hh
    exact ⟨by simp [Hunk.op, Op.run, hp, Except.toOption, hdone.1], fun _ => hdone.2⟩
  case vc5 =>
    rename_i hpre p hp _ path movePath _ hh _ _ _ hdone
    obtain ⟨rfl, rfl⟩ := hpre
    subst hh
    refine ⟨by simp [Hunk.op, hp, Except.toOption, hdone.1], fun haway => hdone.2 ?_⟩
    rintro dest rfl hdest
    have hpath : PathUri.join cwd path = .ok p := hp
    simp [Hunk.movesOntoItself, hpath, hdest] at haway
  case vc7 =>
    rename_i hpre _ _
    obtain ⟨rfl, rfl⟩ := hpre
    exact Weakens.explains ⟨rfl, id⟩ _
  -- a hunk that fails in its arm
  case vc2 =>
    rename_i hpre _ _ _ _ _ _ _ _ _
    obtain ⟨rfl, rfl⟩ := hpre
    exact id
  case vc4 =>
    rename_i hpre _ _ _ _ _ _ _ _
    obtain ⟨rfl, rfl⟩ := hpre
    exact id
  case vc6 =>
    rename_i hpre _ _ _ _ _ _ _ _ _ _
    obtain ⟨rfl, rfl⟩ := hpre
    exact id

/-! ## Whole runs -/

/-- The operations of the hunks of a patch. -/
def patchOps (cwd : Path) (hunks : List Hunk) : Option (List (Op Path Text)) :=
  hunks.mapM (Hunk.op cwd)

/-- No hunk moves a file onto itself. -/
def MovesAway (cwd : Path) (hunks : List Hunk) : Prop :=
  ∀ h ∈ hunks, h.movesOntoItself cwd = false

theorem patchOps_cons {cwd : Path} {h : Hunk} {hunks : List Hunk} {F₁ F₂ F₃ : Files Path}
    (hop : (h.op cwd).bind (Op.run F₁) = some F₂)
    (hops : (patchOps cwd hunks).bind (runAll · F₂) = some F₃) :
    (patchOps cwd (h :: hunks)).bind (runAll · F₁) = some F₃ := by
  obtain ⟨op, h₁, h₂⟩ := Option.bind_eq_some_iff.1 hop
  obtain ⟨ops, h₃, h₄⟩ := Option.bind_eq_some_iff.1 hops
  rw [patchOps] at h₃
  simp [patchOps, h₁, h₃, runAll, h₂, h₄]

variable (hunks : List Hunk)

/-- **A run over the hunks.**  The operations of the hunks are carried out one after the
other, and the changes that explain them add up. -/
theorem applyHunkLoop_spec (affected : AffectedPaths) (D : AppliedPatchDelta Path)
    (F : Files Path) :
    ⦃fun δ d => ⌜δ = D ∧ d.files = F⌝⦄ applyHunkLoop cwd affected hunks
    ⦃post⟨fun _ δ d => ⌜(patchOps cwd hunks).bind (runAll · F) = some d.files ∧
        (MovesAway cwd hunks → Explains D F δ d.files)⌝,
      fun _ δ d => ⌜MovesAway cwd hunks → Explains D F δ d.files⌝⟩⦄ := by
  induction hunks generalizing affected D F with
  | nil =>
    rintro δ d ⟨rfl, rfl⟩
    exact ⟨rfl, fun _ => Weakens.explains ⟨rfl, id⟩ _⟩
  | cons h hunks ih =>
    mvcgen [applyHunkLoop, applyHunk_spec, ih]
    case vc1 =>
      rename_i hpre _ _ _ hstep _ _ _
      obtain ⟨rfl, rfl⟩ := hpre
      intro hrest hexplains
      refine ⟨patchOps_cons hstep.1 hrest, fun haway => ?_⟩
      exact (hstep.2 (haway h List.mem_cons_self)).trans
        (hexplains fun h' hh' => haway h' (List.mem_cons_of_mem h hh'))
    case vc2 =>
      -- the hunk succeeded and a later one failed
      rename_i hpre _ _ _ hstep _ _ _
      obtain ⟨rfl, rfl⟩ := hpre
      intro hexplains haway
      exact (hstep.2 (haway h List.mem_cons_self)).trans
        (hexplains fun h' hh' => haway h' (List.mem_cons_of_mem h hh'))
    case vc3 =>
      rename_i hpre _ _ _
      obtain ⟨rfl, rfl⟩ := hpre
      exact fun hexplains _ => hexplains

theorem applyHunksToFiles_spec (D : AppliedPatchDelta Path) (F : Files Path) :
    ⦃fun δ d => ⌜δ = D ∧ d.files = F⌝⦄ applyHunksToFiles cwd hunks
    ⦃post⟨fun _ δ d => ⌜(patchOps cwd hunks).bind (runAll · F) = some d.files ∧
        (MovesAway cwd hunks → Explains D F δ d.files)⌝,
      fun _ δ d => ⌜MovesAway cwd hunks → Explains D F δ d.files⌝⟩⦄ := by
  mvcgen [applyHunksToFiles, applyHunkLoop_spec]
  rename_i hpre
  obtain ⟨rfl, rfl⟩ := hpre
  exact fun _ => Weakens.explains ⟨rfl, id⟩ _

variable (d : State Path)

/-- What a run has done, read off its end. -/
theorem runHunks_spec :
    EndsIn
      (fun _ δ d' => (patchOps cwd hunks).bind (runAll · d.files) = some d'.files ∧
        (MovesAway cwd hunks → Explains .empty d.files δ d'.files))
      (fun _ δ d' => MovesAway cwd hunks → Explains .empty d.files δ d'.files)
      (runHunks cwd hunks d) :=
  run_of_triple _ (applyHunksToFiles_spec cwd hunks .empty d.files) .empty d ⟨rfl, rfl⟩

/-- A run that succeeds has carried out the operations of the hunks in order. -/
theorem runHunks_ops {affected : AffectedPaths} (hok : (runHunks cwd hunks d).1.1 = .ok affected) :
    (patchOps cwd hunks).bind (runAll · d.files) = some (runHunks cwd hunks d).2.files := by
  have hspec := runHunks_spec cwd hunks d
  rcases hrun : runHunks cwd hunks d with ⟨⟨r, δ⟩, d'⟩
  rw [hrun] at hspec hok
  obtain rfl : r = .ok affected := hok
  exact hspec.1

/-- The delta explains a run that moves no file onto itself, however it ends. -/
theorem runHunks_explains (haway : MovesAway cwd hunks) :
    Explains .empty d.files (runHunks cwd hunks d).1.2 (runHunks cwd hunks d).2.files := by
  have hspec := runHunks_spec cwd hunks d
  rcases hrun : runHunks cwd hunks d with ⟨⟨r, δ⟩, d'⟩
  rw [hrun] at hspec
  cases r with
  | ok affected => exact hspec.2 haway
  | error e => exact hspec haway

/-- **An exact delta replays to the files left behind.**  Whatever operations fail, if a
run ends, in success or failure, with an exact delta, the changes of the delta lead from
the files before to the files after it, provided that no file is moved onto itself. -/
theorem exact_delta_replays (cwd : Path) (hunks : List Hunk) (d : State Path)
    (haway : MovesAway cwd hunks) (hexact : (runHunks cwd hunks d).1.2.exact = true) :
    replay d.files (runHunks cwd hunks d).1.2.changes = (runHunks cwd hunks d).2.files := by
  obtain ⟨-, cs, hcs, hreplay⟩ := runHunks_explains cwd hunks d haway hexact
  rw [hcs]
  exact hreplay

/-- A disk without faults that holds one file, `a`. -/
def diskOfA : State FileName where
  nodes p := if p.name = ['a'] then some (.file ['x', '\n']) else none
  faults _ := none

/-- The change of the line `x` to `y`. -/
def xToY : UpdateFileChunk where
  oldLines := [['x']]
  newLines := [['y']]

/-- The file `a` is moved to `b` while the removal of `a` fails: the delta is exact and tells
that `b` was written. -/
theorem exact_delta_replays_failedMove :
    let d : State FileName :=
      { diskOfA with faults := fun n => if n = 6 then some ⟨.other, []⟩ else none }
    let out := runHunks ⟨[]⟩ [.updateFile ['a'] (some ['b']) [xToY]] d
    out.1.1 = .error (.context (removeContext (⟨['a']⟩ : FileName)) ⟨.other, []⟩) ∧
      out.2.files ⟨['b']⟩ = some ['y', '\n'] ∧ replay d.files out.1.2.changes = out.2.files :=
  ⟨by decide, by decide, exact_delta_replays _ _ _ (by unfold MovesAway; decide) (by decide)⟩

/-- A file moved onto itself is written and then removed, but the delta is exact and its
replay keeps the file. -/
theorem exact_delta_of_selfMove :
    let out := runHunks ⟨[]⟩ [.updateFile ['a'] (some ['a']) [xToY]] diskOfA
    out.1.1 = .ok ⟨[], [['a']], []⟩ ∧ out.1.2.exact = true ∧ out.2.files ⟨['a']⟩ = none ∧
      replay diskOfA.files out.1.2.changes ⟨['a']⟩ = some ['y', '\n'] := by
  decide

end ApplyPatch
