/-
# Verifying a patch before it is applied (`apply-patch/src/invocation.rs`)

`tryVerifyApplyPatchArgs` reads the files that a patch names, computes the change of each
hunk against them, and refuses two hunks for one path.  The changes it returns announce
what the files will be once the patch has been applied.  Application is sequential, and
the refusal of duplicates does not look at the destinations of moves, so the announcements
need not come true.
-/
import BetterCodex.DeltaReplay

open RustStr Disk MapOps Std.Do

set_option mvcgen.warning false

namespace ApplyPatch

variable {Path : Type}

/-! ## `try_verify_apply_patch_args` -/

inductive ApplyPatchFileChange (Path : Type) where
  | add (content : Text)
  | delete (content : Text)
  | update (unifiedDiff : Text) (movePath : Option Path) (newContent : Text)
  deriving DecidableEq, Repr

/-- `ApplyPatchAction`, with the map of the changes as a list without double keys. -/
structure ApplyPatchAction (Path : Type) where
  changes : List (Path × ApplyPatchFileChange Path)
  patch : Text
  cwd : Path
  deriving DecidableEq, Repr

structure ApplyPatchFileUpdate where
  unifiedDiff : Text
  originalContent : Text
  content : Text
  deriving DecidableEq, Repr

/-- A program that reads files and may end in an error of the patch. -/
abbrev Verifying (Path : Type) := ExceptT ApplyPatchError (Fs Path)

variable [DecidableEq Path] [PathUri Path]

def multipleOperationsMessage (p : Path) : Text :=
  "multiple operations target ".toList ++ inferredNativePathString p

def deletedReadContext (p : Path) : Text :=
  "Failed to read ".toList ++ inferredNativePathString p

variable (textDiff : ℕ → Text → Text → Text)

/-- `unified_diff_from_chunks`.  `textDiff` stands for the diff of the `similar` crate: the
radius of the context and the two texts. -/
def unifiedDiffFromChunks (p : Path)
    (chunks : List UpdateFileChunk) : Verifying Path ApplyPatchFileUpdate := do
  let (originalContents, newContents) ← deriveNewContentsFromChunks p chunks
  return ⟨textDiff 1 originalContents newContents, originalContents, newContents⟩

/-- `cwd.join(..)?`. -/
def joinVerified (r : Except Text Path) : Verifying Path Path :=
  match r with
  | .ok p => pure p
  | .error message => throw (.pathUri message)

/-- The change of one hunk. -/
def verifyChange (cwd p : Path) (h : Hunk) : Verifying Path (ApplyPatchFileChange Path) := do
  match h with
  | .addFile _ contents => return .add contents
  | .deleteFile _ =>
    match ← readFile p with
    | .ok content => return .delete content
    | .error source => throw (.ioError (deletedReadContext p) source)
  | .updateFile _ movePath chunks =>
    let update ← unifiedDiffFromChunks textDiff p chunks
    match movePath with
    | none => return .update update.unifiedDiff none update.content
    | some dest =>
      let q ← joinVerified (PathUri.join cwd dest)
      return .update update.unifiedDiff (some q) update.content

/-- One round of the loop over the hunks. -/
def verifyHunk (cwd : Path) (changes : List (Path × ApplyPatchFileChange Path)) (h : Hunk) :
    Verifying Path (List (Path × ApplyPatchFileChange Path)) := do
  let p ← joinVerified (h.resolvePath cwd)
  if p ∈ changes.map Prod.fst then
    throw (.parseError (.invalidPatchError (multipleOperationsMessage p)))
  else
    let change ← verifyChange textDiff cwd p h
    return changes ++ [(p, change)]

/-- The loop over the hunks. -/
def verifyHunkLoop (textDiff : ℕ → Text → Text → Text) (cwd : Path) :
    List (Path × ApplyPatchFileChange Path) → List Hunk →
      Verifying Path (List (Path × ApplyPatchFileChange Path))
  | changes, [] => return changes
  | changes, h :: hunks => do
    verifyHunkLoop textDiff cwd (← verifyHunk textDiff cwd changes h) hunks

/-- The directory that the paths of the patch are joined to. -/
def effectiveCwd (cwd : Path) (workdir : Option Text) : Except Text Path :=
  match workdir with
  | some dir => PathUri.join cwd dir
  | none => .ok cwd

def tryVerifyApplyPatchArgs (args : ApplyPatchArgs)
    (cwd : Path) : Verifying Path (ApplyPatchAction Path) := do
  let cwd' ← joinVerified (effectiveCwd cwd args.workdir)
  let changes ← verifyHunkLoop textDiff cwd' [] args.hunks
  return ⟨changes, args.patch, cwd'⟩

/-! ## What the changes announce -/

/-- The contents that a change announces: an added or updated file is there with its
new contents, at its destination if it is moved, and a deleted file and the source of a
move are not there. -/
def ApplyPatchFileChange.outcomes (p : Path) : ApplyPatchFileChange Path →
    List (Path × Option Text)
  | .add content => [(p, some content)]
  | .delete _ => [(p, none)]
  | .update _ none newContent => [(p, some newContent)]
  | .update _ (some dest) newContent => [(dest, some newContent), (p, none)]

/-- All that a list of changes announces. -/
def outcomes (changes : List (Path × ApplyPatchFileChange Path)) : List (Path × Option Text) :=
  changes.flatMap fun e => e.2.outcomes e.1

/-- The files `F'` are the files `F` with the changes that the action announces. -/
def ApplyPatchAction.Holds (action : ApplyPatchAction Path) (F F' : Files Path) : Prop :=
  (∀ p content, (p, content) ∈ outcomes action.changes → F' p = content) ∧
    ∀ p, (∀ content, (p, content) ∉ outcomes action.changes) → F' p = F p

/-- The hunks do not interfere: their announcements agree, and an updated file that an
earlier move wrote, and no later one, is left as it is by a second update. -/
def NoInterference (cwd : Path) (hunks : List Hunk) (F : Files Path) : Prop :=
  ∀ ops, patchOps cwd hunks = some ops → Agree ops F ∧ Settled ops F

/-- A change announces what the operation of its hunk announces. -/
def Matches (F : Files Path) (op : Op Path Text) (e : Path × ApplyPatchFileChange Path) : Prop :=
  e.1 = op.key ∧ e.2.outcomes e.1 = op.announces F ∧ op.Ready F

omit [DecidableEq Path] in
theorem bind_chunkEdit {F : Files Path} {p : Path} {chunks : List UpdateFileChunk}
    {old new : Text} (hold : F p = some old)
    (hnew : deriveNewContents (inferredNativePathString p) old chunks = .ok new) :
    (F p).bind (chunkEdit p chunks) = some new := by
  rw [hold, Option.bind_some, chunkEdit, hnew]
  rfl

omit [DecidableEq Path] in
/-- The change of a hunk announces what its operation does. -/
theorem verifyChange_spec (cwd p : Path) (h : Hunk)
    (hp : h.resolvePath cwd = .ok p) (F : Files Path) :
    ⦃fun d => ⌜d.files = F⌝⦄ verifyChange textDiff cwd p h
    ⦃post⟨fun change d => ⌜d.files = F ∧ ∃ op, h.op cwd = some op ∧ Matches F op (p, change)⌝,
      fun _ _ => ⌜True⌝⟩⦄ := by
  mvcgen [verifyChange, unifiedDiffFromChunks, joinVerified, deriveNewContentsFromChunks_spec]
  case vc1 =>
    rename_i contents hh _ hd
    subst hh
    refine ⟨hd, .put p contents, ?_, rfl, rfl, trivial⟩
    simp [Hunk.op, hp, Except.toOption]
  case vc2 =>
    rename_i hh _ hd _ _ _ _ hread
    subst hh
    refine ⟨hread.1.trans hd, .drop p, ?_, rfl, rfl, trivial⟩
    simp [Hunk.op, hp, Except.toOption]
  case vc3 =>
    rename_i chunks hh _ hd r _ hderive hnone
    subst hh hnone hd
    have hv := bind_chunkEdit hderive.2.1 hderive.2.2
    refine ⟨hderive.1, .rewrite p (chunkEdit p chunks), ?_, rfl, ?_,
      Option.isSome_iff_exists.2 ⟨_, hv⟩⟩
    · simp [Hunk.op, hp, Except.toOption, updateOp]
    · rw [announces_rewrite hv]
      rfl
  case vc4 =>
    rename_i chunks hh _ hd r _ hderive dest hdest q hq
    subst hh hdest hd
    have hv := bind_chunkEdit hderive.2.1 hderive.2.2
    refine ⟨hderive.1, .move p q (chunkEdit p chunks), ?_, rfl, ?_,
      Option.isSome_iff_exists.2 ⟨_, hv⟩⟩
    · simp [Hunk.op, hp, Except.toOption, updateOp, hq]
    · rw [announces_move hv]
      rfl

/-- **The changes of an accepted patch** match the operations of its hunks one by one,
each read against the same files, and are for distinct paths. -/
theorem verifyHunkLoop_spec (cwd : Path)
    (hunks : List Hunk) (changes : List (Path × ApplyPatchFileChange Path))
    (hnodup : (changes.map Prod.fst).Nodup) (F : Files Path) :
    ⦃fun d => ⌜d.files = F⌝⦄ verifyHunkLoop textDiff cwd changes hunks
    ⦃post⟨fun r _ => ⌜(r.map Prod.fst).Nodup ∧ ∃ ops new, r = changes ++ new ∧
        patchOps cwd hunks = some ops ∧ List.Forall₂ (Matches F) ops new⌝,
      fun _ _ => ⌜True⌝⟩⦄ := by
  induction hunks generalizing changes F with
  | nil =>
    rintro d rfl
    exact ⟨hnodup, [], [], by simp, rfl, .nil⟩
  | cons h hunks ih =>
    mvcgen [verifyHunkLoop, verifyHunk, joinVerified, verifyChange_spec, ih]
    case vc2 =>
      rename_i p _ hfresh _ _ _
      rw [List.map_append, List.nodup_append]
      refine ⟨hnodup, List.nodup_singleton p, ?_⟩
      rintro q hq _ hp rfl
      rw [List.mem_singleton.1 hp] at hq
      exact hfresh hq
    case vc3 =>
      rename_i hd p _ _ change _ hstep r _
      subst hd
      obtain ⟨hsame, op, hop, hmatch⟩ := hstep
      rintro hnodup' ⟨ops, new, hr, hops, hforall⟩
      rw [hsame] at hforall
      refine ⟨hnodup', op :: ops, (p, change) :: new, by simp [hr], ?_, hforall.cons hmatch⟩
      rw [patchOps] at hops
      simp [patchOps, hop, hops]

/-- The verified changes announce the operations of the hunks. -/
theorem tryVerifyApplyPatchArgs_spec
    (args : ApplyPatchArgs) (cwd cwd' : Path) (hcwd : effectiveCwd cwd args.workdir = .ok cwd')
    (F : Files Path) :
    ⦃fun d => ⌜d.files = F⌝⦄ tryVerifyApplyPatchArgs textDiff args cwd
    ⦃post⟨fun action _ => ⌜(action.changes.map Prod.fst).Nodup ∧ ∃ ops,
        patchOps cwd' args.hunks = some ops ∧ List.Forall₂ (Matches F) ops action.changes⌝,
      fun _ _ => ⌜True⌝⟩⦄ := by
  mvcgen [tryVerifyApplyPatchArgs, joinVerified, verifyHunkLoop_spec]
  case vc1 => exact List.nodup_nil
  case vc2 =>
    rename_i hd p hp r _ hloop
    subst hd
    obtain rfl : p = cwd' := Except.ok.inj (hp.symm.trans hcwd)
    obtain ⟨hnodup, ops, new, hr, hops, hforall⟩ := hloop
    rw [List.nil_append] at hr
    exact ⟨hnodup, ops, hops, hr ▸ hforall⟩

/-- How `try_verify_apply_patch_args` ends. -/
def verifyArgs (args : ApplyPatchArgs) (cwd : Path)
    (d : State Path) : Except ApplyPatchError (ApplyPatchAction Path) :=
  (((tryVerifyApplyPatchArgs textDiff args cwd).run).run d).1

/-! ## When the announcements come true -/

omit [DecidableEq Path] [PathUri Path] in
/-- Announcements of hunks as announcements of operations. -/
theorem announced_of_matches {F : Files Path} {ops : List (Op Path Text)}
    {changes : List (Path × ApplyPatchFileChange Path)} (h : List.Forall₂ (Matches F) ops changes) :
    ops.map Op.key = changes.map Prod.fst ∧ announced ops F = outcomes changes ∧
      ∀ op ∈ ops, op.Ready F := by
  induction h with
  | nil => exact ⟨rfl, rfl, by simp⟩
  | cons hmatch _ ih =>
    obtain ⟨hkeys, hannounced, hready⟩ := ih
    refine ⟨by rw [List.map_cons, List.map_cons, hkeys, hmatch.1], ?_, ?_⟩
    · rw [announced, outcomes, List.flatMap_cons, List.flatMap_cons, ← hmatch.2.1]
      exact congrArg _ hannounced
    · intro op hop
      rcases List.mem_cons.1 hop with rfl | hop
      · exact hmatch.2.2
      · exact hready op hop

/-- **When a verified patch does what it announces.**  Let a patch be accepted for a disk,
and let its hunks then be applied to the same files with success.  The files are what the
verified changes announce exactly when the hunks do not interfere. -/
theorem verified_patch_holds_iff (textDiff : ℕ → Text → Text → Text) (args : ApplyPatchArgs)
    (cwd cwd' : Path) (d d' : State Path) (action : ApplyPatchAction Path)
    (affected : AffectedPaths) (hcwd : effectiveCwd cwd args.workdir = .ok cwd')
    (hverify : verifyArgs textDiff args cwd d = .ok action) (hsame : d'.files = d.files)
    (happly : (runHunks cwd' args.hunks d').1.1 = .ok affected) :
    action.Holds d.files (runHunks cwd' args.hunks d').2.files ↔
      NoInterference cwd' args.hunks d.files := by
  obtain ⟨hnodup, ops, hops, hmatches⟩ := run_of_triple_ok _
    (tryVerifyApplyPatchArgs_spec textDiff args cwd cwd' hcwd d.files) d rfl hverify
  obtain ⟨hkeys, hannounced, hready⟩ := announced_of_matches hmatches
  have hrun := runHunks_ops cwd' args.hunks d' happly
  rw [hops, Option.bind_some, hsame] at hrun
  rw [← hkeys] at hnodup
  have hiff := realised_iff hnodup hready hrun
  rw [Realised, hannounced] at hiff
  rw [ApplyPatchAction.Holds, hiff]
  constructor
  · intro hop ops' hops'
    obtain rfl : ops = ops' := Option.some.inj (hops.symm.trans hops')
    exact hop
  · exact fun hno => hno ops hops

/-- The arguments of a patch with these hunks. -/
def argsOf (hunks : List Hunk) : ApplyPatchArgs := ⟨[], hunks, none, none⟩

/-- The file `a` is moved to `b` and updated on the way, and a file `c` is added. -/
theorem verified_patch_holds_iff_moveAndAdd :
    let hunks : List Hunk := [.updateFile ['a'] (some ['b']) [xToY], .addFile ['c'] ['z', '\n']]
    let action : ApplyPatchAction FileName :=
      ⟨[(⟨['a']⟩, .update [] (some ⟨['b']⟩) ['y', '\n']), (⟨['c']⟩, .add ['z', '\n'])], [], ⟨[]⟩⟩
    verifyArgs (fun _ _ _ => []) (argsOf hunks) ⟨[]⟩ diskOfA = .ok action ∧
      (action.Holds diskOfA.files (runHunks ⟨[]⟩ hunks diskOfA).2.files ↔
        NoInterference ⟨[]⟩ hunks diskOfA.files) :=
  ⟨by decide, verified_patch_holds_iff (fun _ _ _ => []) (argsOf _) ⟨[]⟩ ⟨[]⟩ diskOfA diskOfA _
    ⟨[['c']], [['b']], []⟩ rfl (by decide) rfl (by decide)⟩

/-- The file `a` is moved to `b`, where another hunk adds a file: the patch is accepted and
applied, and `b` does not hold the contents announced for the moved file. -/
theorem verified_patch_overwritten :
    let hunks : List Hunk := [.updateFile ['a'] (some ['b']) [xToY], .addFile ['b'] ['z', '\n']]
    let action : ApplyPatchAction FileName :=
      ⟨[(⟨['a']⟩, .update [] (some ⟨['b']⟩) ['y', '\n']), (⟨['b']⟩, .add ['z', '\n'])], [], ⟨[]⟩⟩
    verifyArgs (fun _ _ _ => []) (argsOf hunks) ⟨[]⟩ diskOfA = .ok action ∧
      (runHunks ⟨[]⟩ hunks diskOfA).1.1 = .ok ⟨[['b']], [['b']], []⟩ ∧
      (runHunks ⟨[]⟩ hunks diskOfA).2.files ⟨['b']⟩ = some ['z', '\n'] ∧
      ¬ action.Holds diskOfA.files (runHunks ⟨[]⟩ hunks diskOfA).2.files := by
  refine ⟨by decide, by decide, by decide, ?_⟩
  rintro ⟨hholds, -⟩
  have hmoved := hholds ⟨['b']⟩ (some ['y', '\n']) (by decide)
  revert hmoved
  decide

end ApplyPatch
