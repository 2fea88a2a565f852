/-
# File-system sandbox policies

A policy is a list of entries that give a path, or a symbol for some paths, an access.  An
executor context says what the symbols stand for.  Of the entries at or above a path the
deepest one decides, and at one depth `deny` wins over `write` and `write` over `read`.
-/
import BetterCodex.DeepestRule
import BetterCodex.PathContainment

namespace Permissions

open RustStr Paths DeepestRule Option

/-! ## Policies and contexts -/

inductive FileSystemAccessMode
  | read
  | write
  | deny
deriving DecidableEq, Repr

namespace FileSystemAccessMode

/-- The derived order: which of two entries for one path wins. -/
def precedence : FileSystemAccessMode → ℕ
  | read => 0
  | write => 1
  | deny => 2

/-- What an access allows: `deny` less than `read` less than `write`. -/
def capability : FileSystemAccessMode → ℕ
  | deny => 0
  | read => 1
  | write => 2

def canRead (access : FileSystemAccessMode) : Bool := access ≠ deny

def canWrite (access : FileSystemAccessMode) : Bool := access = write

theorem precedence_injective : Function.Injective precedence := by
  intro a b h
  cases a <;> cases b <;> first | rfl | cases h

end FileSystemAccessMode

inductive FileSystemSpecialPath
  | root
  | minimal
  | projectRoots (subpath : Option Text)
  | tmpdir
  | slashTmp
  | unknown (path : Text) (subpath : Option Text)
deriving DecidableEq

inductive FileSystemPath
  | path (path : PathUri)
  | globPattern (pattern : Text)
  | special (value : FileSystemSpecialPath)
deriving BEq

/-- `FileSystemSandboxEntryMissingPathBehavior`. -/
inductive MissingPathBehavior
  | skip
deriving DecidableEq

structure FileSystemSandboxEntry where
  path : FileSystemPath
  access : FileSystemAccessMode
  missingPathBehavior : Option MissingPathBehavior := none
deriving BEq

inductive FileSystemSandboxKind
  | restricted
  | unrestricted
  | externalSandbox
deriving DecidableEq

structure FileSystemSandboxPolicy where
  kind : FileSystemSandboxKind
  entries : List FileSystemSandboxEntry

structure FileSystemSandboxPolicyContext where
  cwd : PathUri
  workspaceRoots : List PathUri
  userHomeDir : Option PathUri
  temporaryDirectories : Option (List PathUri)

def protectedMetadataPathNames : List Text :=
  [".git".toList, ".agents".toList, ".codex".toList, ".aws".toList]

def fileSystemRoot (context : FileSystemSandboxPolicyContext) : Option PathUri := do
  let _ ← context.cwd.lexicalDepth
  context.cwd.ancestors.getLast?

/-- The roots that an entry's path stands for, before those of another convention are left
out. -/
def entryRoots (crate : UrlCrate) (context : FileSystemSandboxPolicyContext) :
    FileSystemPath → List PathUri
  | .path path => [path]
  | .globPattern _ => []
  | .special .root => (fileSystemRoot context).toList
  | .special (.projectRoots subpath) =>
    context.workspaceRoots.filterMap fun root =>
      match subpath with
      | some subpath => root.join crate subpath
      | none => some root
  | .special .tmpdir => context.temporaryDirectories.getD []
  | .special .slashTmp =>
    if context.cwd.inferPathConvention = some .posix then
      (context.cwd.join crate "/tmp".toList).toList
    else []
  | .special .minimal => []
  | .special (.unknown _ _) => []

/-! ## Same targets -/

def specialPathsShareTarget : FileSystemSpecialPath → FileSystemSpecialPath → Bool
  | .root, .root => true
  | .minimal, .minimal => true
  | .tmpdir, .tmpdir => true
  | .slashTmp, .slashTmp => true
  | .projectRoots left, .projectRoots right => left = right
  | .unknown left leftSubpath, .unknown right rightSubpath =>
    left = right && leftSubpath = rightSubpath
  | _, _ => false

def specialPathMatchesPathUri (value : FileSystemSpecialPath) (path : PathUri) : Bool :=
  match value with
  | .root => path.lexicalDepth.isSome && path.parent.isNone
  | .slashTmp =>
    path.inferPathConvention = some .posix && path.lexicalDepth = some 1 &&
      path.basename = some (ascii "tmp")
  | _ => false

def fileSystemPathsShareTarget (convention : PathConvention) : FileSystemPath → FileSystemPath → Bool
  | .path left, .path right => left == right
  | .special left, .special right => specialPathsShareTarget left right
  | .path path, .special value =>
    path.inferPathConvention = some convention && specialPathMatchesPathUri value path
  | .special value, .path path =>
    path.inferPathConvention = some convention && specialPathMatchesPathUri value path
  | .globPattern left, .globPattern right => left = right
  | _, _ => false

namespace FileSystemSandboxPolicy

/-- `FileSystemSandboxPolicy::restricted`. -/
def ofEntries (entries : List FileSystemSandboxEntry) : FileSystemSandboxPolicy where
  kind := .restricted
  entries := entries

def resolvedEntries (crate : UrlCrate) (policy : FileSystemSandboxPolicy)
    (context : FileSystemSandboxPolicyContext) : List (PathUri × FileSystemAccessMode) :=
  policy.entries.flatMap fun entry =>
    ((entryRoots crate context entry.path).filter fun path =>
      path.inferPathConvention = context.cwd.inferPathConvention).map fun path => (path, entry.access)

/-! ## Flags -/

variable (policy : FileSystemSandboxPolicy)

def hasRootAccess (predicate : FileSystemAccessMode → Bool) : Bool :=
  policy.kind = .restricted &&
    policy.entries.any fun entry => entry.path == .special .root && predicate entry.access

def hasDeniedReadRestrictionsForConvention (convention : Option PathConvention) : Bool :=
  policy.kind = .restricted &&
    policy.entries.any fun entry =>
      entry.access = .deny &&
        !(entry.path == .special .slashTmp && convention = some PathConvention.windows)

def hasSameTargetWriteOverride (entry : FileSystemSandboxEntry)
    (convention : PathConvention) : Bool :=
  policy.entries.any fun candidate =>
    candidate.access.canWrite && decide (entry.access.precedence < candidate.access.precedence) &&
      fileSystemPathsShareTarget convention candidate.path entry.path

def hasWriteNarrowingEntries (convention : PathConvention) : Bool :=
  policy.kind = .restricted &&
    policy.entries.any fun entry =>
      if entry.access.canWrite then false
      else
        match entry.path with
        | .path _ => !policy.hasSameTargetWriteOverride entry convention
        | .globPattern _ => true
        | .special .root => entry.access = .deny
        | .special .slashTmp =>
          if convention = .windows then false
          else !policy.hasSameTargetWriteOverride entry convention
        | .special .minimal => false
        | .special (.unknown _ _) => false
        | .special _ => !policy.hasSameTargetWriteOverride entry convention

def hasFullDiskReadAccessForConvention (convention : Option PathConvention) : Bool :=
  match policy.kind with
  | .unrestricted | .externalSandbox => true
  | .restricted =>
    policy.hasRootAccess FileSystemAccessMode.canRead &&
      !policy.hasDeniedReadRestrictionsForConvention convention

def hasFullDiskWriteAccessForConvention (convention : Option PathConvention) : Bool :=
  match policy.kind with
  | .unrestricted | .externalSandbox => true
  | .restricted =>
    convention.any fun convention =>
      policy.hasRootAccess FileSystemAccessMode.canWrite &&
        !policy.hasWriteNarrowingEntries convention

def hasFullDiskWriteAccessWithContext (context : FileSystemSandboxPolicyContext) : Bool :=
  policy.hasFullDiskWriteAccessForConvention context.cwd.inferPathConvention

/-! ## Access -/

/-- The roots with their depths; opaque roots are left out, and a root that is ambiguous makes
the whole list unusable. -/
def withDepths : List (PathUri × FileSystemAccessMode) →
    Option (List (PathUri × FileSystemAccessMode × ℕ))
  | [] => some []
  | (root, access) :: rest =>
    match root.lexicalDepth with
    | some depth => (withDepths rest).map ((root, access, depth) :: ·)
    | none => if root.isOpaque then withDepths rest else none

def resolveAccess (crate : UrlCrate) (policy : FileSystemSandboxPolicy) (path : PathUri)
    (context : FileSystemSandboxPolicyContext) : FileSystemAccessMode :=
  match policy.kind with
  | .unrestricted | .externalSandbox => .write
  | .restricted =>
    match context.cwd.inferPathConvention with
    | none => .deny
    | some convention =>
      if path.inferPathConvention ≠ some convention ∨ path.lexicalDepth = none ∨
          context.cwd.lexicalDepth = none
      then .deny
      else
        match withDepths (policy.resolvedEntries crate context) with
        | none => .deny
        | some entries =>
          ((strongest entries (fun entry => path.startsWith entry.1) fun entry =>
            toLex (entry.2.2, entry.2.1.precedence)).map fun entry => entry.2.1).getD .deny

def metadataWriteDenial (crate : UrlCrate) (policy : FileSystemSandboxPolicy) (path : PathUri)
    (context : FileSystemSandboxPolicyContext) : Option Text :=
  if policy.kind ≠ .restricted then none
  else
    let entries := policy.resolvedEntries crate context
    let first := (entries.filter fun entry => entry.2.canWrite).findSome? fun entry =>
      protectedMetadataPathNames.findSome? fun metadataName =>
        (entry.1.joinDescendant crate metadataName).bind fun protectedPath =>
          if path.startsWith protectedPath then some (protectedPath, metadataName) else none
    first.bind fun (protectedPath, metadataName) =>
      if entries.any fun entry =>
        entry.2.canWrite && path.startsWith entry.1 && entry.1.startsWith protectedPath
      then none
      else some metadataName

def canWritePath (crate : UrlCrate) (policy : FileSystemSandboxPolicy) (path : PathUri)
    (context : FileSystemSandboxPolicyContext) : Bool :=
  (policy.resolveAccess crate path context).canWrite &&
    (policy.hasFullDiskWriteAccessWithContext context ||
      (policy.metadataWriteDenial crate path context).isNone)

end FileSystemSandboxPolicy

/-! ## The entry that decides -/

open FileSystemSandboxPolicy

variable {crate : UrlCrate} {policy : FileSystemSandboxPolicy} {path : PathUri}
  {context : FileSystemSandboxPolicyContext}

/-- The roots of a policy, entry by entry. -/
theorem mem_resolvedEntries {root : PathUri} {access : FileSystemAccessMode} :
    (root, access) ∈ policy.resolvedEntries crate context ↔
      ∃ entry ∈ policy.entries, entry.access = access ∧ root ∈ entryRoots crate context entry.path ∧
        root.inferPathConvention = context.cwd.inferPathConvention := by
  simp only [resolvedEntries, List.mem_flatMap, List.mem_map, List.mem_filter, decide_eq_true_eq,
    Prod.mk.injEq]
  constructor
  · rintro ⟨entry, hentry, r, ⟨hr, hconv⟩, rfl, rfl⟩
    exact ⟨entry, hentry, rfl, hr, hconv⟩
  · rintro ⟨entry, hentry, rfl, hr, hconv⟩
    exact ⟨entry, hentry, root, ⟨hr, hconv⟩, rfl, rfl⟩

/-- The strength of a root and its access: deeper first, then the precedence. -/
def rank (entry : PathUri × FileSystemAccessMode) : ℕ ×ₗ ℕ :=
  toLex (entry.1.url.names.length, entry.2.precedence)

theorem access_eq_of_rank_eq {a b : PathUri × FileSystemAccessMode} (h : rank a = rank b) :
    a.2 = b.2 :=
  FileSystemAccessMode.precedence_injective (Prod.mk.inj (toLex_inj.1 h)).2

/-- The root is not ambiguous and lies at or above the path. -/
def Covers (path : PathUri) (entry : PathUri × FileSystemAccessMode) : Prop :=
  entry.1.lexicalDepth.isSome = true ∧ path.startsWith entry.1 = true

/-- What has to be unambiguous before the roots are looked at. -/
structure Checkable (crate : UrlCrate) (policy : FileSystemSandboxPolicy) (path : PathUri)
    (context : FileSystemSandboxPolicyContext) (convention : PathConvention) : Prop where
  cwdConvention : context.cwd.inferPathConvention = some convention
  pathConvention : path.inferPathConvention = some convention
  pathLexical : path.lexicalDepth.isSome = true
  cwdLexical : context.cwd.lexicalDepth.isSome = true
  roots : ∀ entry ∈ policy.resolvedEntries crate context,
    entry.1.lexicalDepth.isSome = true ∨ entry.1.isOpaque = true

/-- A root that is neither opaque nor unambiguous: nothing can be checked with it. -/
def HasAmbiguousRoot (roots : List (PathUri × FileSystemAccessMode)) : Prop :=
  ∃ root ∈ roots, root.1.lexicalDepth.isSome = false ∧ root.1.isOpaque = false

theorem not_hasAmbiguousRoot_iff {roots : List (PathUri × FileSystemAccessMode)} :
    ¬ HasAmbiguousRoot roots ↔
      ∀ root ∈ roots, root.1.lexicalDepth.isSome = true ∨ root.1.isOpaque = true := by
  simp only [HasAmbiguousRoot, not_exists, not_and]
  refine forall_congr' fun root => imp_congr_right fun _ => ?_
  cases root.1.lexicalDepth.isSome <;> simp

/-- Opaque roots are left out when every other root has a depth. -/
theorem withDepths_eq_some {entries : List (PathUri × FileSystemAccessMode)}
    (h : ∀ entry ∈ entries, entry.1.lexicalDepth.isSome = true ∨ entry.1.isOpaque = true) :
    withDepths entries = some ((entries.filter fun entry => entry.1.lexicalDepth.isSome).map
      fun entry => (entry.1, entry.2, entry.1.url.names.length)) := by
  induction entries with
  | nil => rfl
  | cons entry entries ih =>
    obtain ⟨root, access⟩ := entry
    have hrest := ih fun entry hentry => h entry (List.mem_cons_of_mem _ hentry)
    rw [withDepths]
    cases hdepth : root.lexicalDepth with
    | some depth =>
      have hlexical : root.lexicalDepth.isSome = true := by rw [hdepth, isSome_some]
      have hlength := PathUri.lexicalDepth_eq_names_length hlexical
      rw [hdepth] at hlength
      rw [hrest, List.filter_cons, if_pos hlexical, some.inj hlength]
      rfl
    | none =>
      have hunclear : root.isOpaque = true := by
        refine (h _ List.mem_cons_self).resolve_left ?_
        rw [hdepth]
        exact Bool.false_ne_true
      rw [hunclear, if_pos rfl, hrest, List.filter_cons, hdepth, isSome_none,
        if_neg Bool.false_ne_true]

/-- One ambiguous root is enough to have no depths at all. -/
theorem withDepths_eq_none {entries : List (PathUri × FileSystemAccessMode)}
    {entry : PathUri × FileSystemAccessMode} (hentry : entry ∈ entries)
    (hdepth : entry.1.lexicalDepth = none) (hunclear : entry.1.isOpaque = false) :
    withDepths entries = none := by
  induction entries with
  | nil => exact absurd hentry List.not_mem_nil
  | cons head entries ih =>
    obtain ⟨root, access⟩ := head
    rw [withDepths]
    rcases List.mem_cons.1 hentry with rfl | hmem
    · dsimp only at hdepth hunclear
      rw [hdepth]
      rw [hunclear, if_neg Bool.false_ne_true]
    · rw [ih hmem]
      cases root.lexicalDepth with
      | some depth => rfl
      | none =>
        split_ifs
        all_goals rfl

theorem resolveAccess_unrestricted (hkind : policy.kind ≠ .restricted) :
    policy.resolveAccess crate path context = .write := by
  rw [resolveAccess]
  cases h : policy.kind with
  | restricted => exact absurd h hkind
  | unrestricted => rfl
  | externalSandbox => rfl

/-- **A path that cannot be checked is denied.** -/
theorem exists_checkable_of_ne_deny (hkind : policy.kind = .restricted)
    (h : policy.resolveAccess crate path context ≠ .deny) :
    ∃ convention, Checkable crate policy path context convention := by
  rw [resolveAccess, hkind] at h
  cases hcwd : context.cwd.inferPathConvention with
  | none =>
    rw [hcwd] at h
    exact absurd rfl h
  | some convention =>
    rw [hcwd] at h
    dsimp only at h
    split_ifs at h with hcond
    · exact absurd rfl h
    · push Not at hcond
      obtain ⟨hpath, hlexical, hcwdLexical⟩ := hcond
      refine ⟨convention, hcwd, hpath, isSome_iff_ne_none.2 hlexical,
        isSome_iff_ne_none.2 hcwdLexical, fun entry hentry => ?_⟩
      by_contra hbad
      push Not at hbad
      have hnone : entry.1.lexicalDepth = none := by
        rw [← isNone_iff_eq_none, ← not_isSome]
        simpa using hbad.1
      rw [withDepths_eq_none hentry hnone (by simpa using hbad.2)] at h
      exact absurd rfl h

/-- **The deepest entry decides**, and a path below no root is denied. -/
theorem resolveAccess_cases (hkind : policy.kind = .restricted) {convention : PathConvention}
    (h : Checkable crate policy path context convention) :
    (∃ entry, Decides (policy.resolvedEntries crate context) (Covers path) rank entry ∧
        policy.resolveAccess crate path context = entry.2) ∨
      (∀ entry ∈ policy.resolvedEntries crate context, ¬ Covers path entry) ∧
        policy.resolveAccess crate path context = .deny := by
  have hcond : ¬ (path.inferPathConvention ≠ some convention ∨ path.lexicalDepth = none ∨
      context.cwd.lexicalDepth = none) := by
    rintro (hpath | hpath | hcwd)
    · exact hpath h.pathConvention
    · exact isSome_iff_ne_none.1 h.pathLexical hpath
    · exact isSome_iff_ne_none.1 h.cwdLexical hcwd
  have hresolve : policy.resolveAccess crate path context =
      ((strongest (((policy.resolvedEntries crate context).filter fun entry =>
            entry.1.lexicalDepth.isSome).map
          fun entry => (entry.1, entry.2, entry.1.url.names.length))
        (fun entry => path.startsWith entry.1) fun entry =>
          toLex (entry.2.2, entry.2.1.precedence)).map fun entry => entry.2.1).getD .deny := by
    rw [resolveAccess, hkind]
    rw [h.cwdConvention]
    dsimp only
    rw [if_neg hcond, withDepths_eq_some h.roots]
  -- the roots with their depths are the roots that are not ambiguous
  have hmem : ∀ entry, entry ∈ policy.resolvedEntries crate context → Covers path entry →
      (entry.1, entry.2, entry.1.url.names.length) ∈
        ((policy.resolvedEntries crate context).filter fun entry =>
          entry.1.lexicalDepth.isSome).map fun entry => (entry.1, entry.2, entry.1.url.names.length) :=
    fun entry hentry hcovers =>
      List.mem_map.2 ⟨entry, List.mem_filter.2 ⟨hentry, hcovers.1⟩, rfl⟩
  rw [hresolve]
  cases hstrongest : strongest (((policy.resolvedEntries crate context).filter fun entry =>
      entry.1.lexicalDepth.isSome).map fun entry => (entry.1, entry.2, entry.1.url.names.length))
      (fun entry => path.startsWith entry.1) fun entry =>
        toLex (entry.2.2, entry.2.1.precedence) with
  | none =>
    refine .inr ⟨fun entry hentry hcovers => ?_, rfl⟩
    have hfalse := strongest_eq_none_iff.1 hstrongest _ (hmem entry hentry hcovers)
    exact Bool.false_ne_true (hfalse.symm.trans hcovers.2)
  | some best =>
    have hbest := strongest_spec hstrongest
    obtain ⟨entry, hentry, rfl⟩ := List.mem_map.1 hbest.mem
    obtain ⟨hentry, hlexical⟩ := List.mem_filter.1 hentry
    refine .inl ⟨entry, ⟨hentry, ⟨hlexical, hbest.holds⟩, fun other hother hcovers => ?_⟩, rfl⟩
    exact hbest.le _ (hmem other hother hcovers) hcovers.2

/-- The access is that of the entry that decides the path. -/
theorem resolveAccess_of_decides (hkind : policy.kind = .restricted) {convention : PathConvention}
    (h : Checkable crate policy path context convention) {entry : PathUri × FileSystemAccessMode}
    (hentry : Decides (policy.resolvedEntries crate context) (Covers path) rank entry) :
    policy.resolveAccess crate path context = entry.2 := by
  rcases resolveAccess_cases hkind h with ⟨other, hother, heq⟩ | ⟨hnone, -⟩
  · rw [heq, access_eq_of_rank_eq (hother.rank_eq hentry)]
  · exact absurd hentry.holds (hnone entry hentry.mem)

/-- **Access as a property of the roots.**  The access of a path has a property exactly if every root
at or above the path without it is outranked by one with it, and `deny` has it where there is no
such root. -/
theorem resolveAccess_iff (hkind : policy.kind = .restricted) {convention : PathConvention}
    (h : Checkable crate policy path context convention) (P : FileSystemAccessMode → Prop) :
    P (policy.resolveAccess crate path context) ↔
      (P .deny ∨ ∃ root ∈ policy.resolvedEntries crate context, Covers path root) ∧
      ∀ root ∈ policy.resolvedEntries crate context, Covers path root → ¬ P root.2 →
        ∃ other ∈ policy.resolvedEntries crate context, Covers path other ∧
          rank root < rank other ∧ P other.2 := by
  have hiff : (∀ root, Decides (policy.resolvedEntries crate context) (Covers path) rank root →
      P root.2) ↔ _ :=
    forall_decides_iff fun a b heq hP => access_eq_of_rank_eq heq ▸ hP
  rw [← hiff]
  rcases resolveAccess_cases hkind h with ⟨entry, hentry, heq⟩ | ⟨hnone, heq⟩
  · rw [heq]
    refine ⟨fun hP => ⟨Or.inr ⟨entry, hentry.mem, hentry.holds⟩, fun root hroot => ?_⟩,
      fun hall => hall.2 entry hentry⟩
    rwa [← access_eq_of_rank_eq (hentry.rank_eq hroot)]
  · rw [heq]
    refine ⟨fun hP => ⟨Or.inl hP, fun root hroot => absurd hroot.holds (hnone root hroot.mem)⟩, ?_⟩
    rintro ⟨hP | ⟨root, hmem, hcovers⟩, -⟩
    · exact hP
    · exact absurd hcovers (hnone root hmem)

/-- An access other than `deny` comes from an entry that decides the path. -/
theorem exists_decides_of_ne_deny (hkind : policy.kind = .restricted)
    (h : policy.resolveAccess crate path context ≠ .deny) :
    ∃ convention entry, Checkable crate policy path context convention ∧
      Decides (policy.resolvedEntries crate context) (Covers path) rank entry ∧
      policy.resolveAccess crate path context = entry.2 := by
  obtain ⟨convention, hcheckable⟩ := exists_checkable_of_ne_deny hkind h
  rcases resolveAccess_cases hkind hcheckable with ⟨entry, hentry, heq⟩ | ⟨-, hdeny⟩
  · exact ⟨convention, entry, hcheckable, hentry, heq⟩
  · exact absurd hdeny h

/-- **Access depends on the set of roots only**, not on their order. -/
theorem resolveAccess_congr {policy' : FileSystemSandboxPolicy} (hkind : policy.kind = .restricted)
    (hkind' : policy'.kind = .restricted) (h : ∀ root, root ∈ policy.resolvedEntries crate context ↔
      root ∈ policy'.resolvedEntries crate context) :
    policy.resolveAccess crate path context = policy'.resolveAccess crate path context := by
  -- the entry that decides for one of them decides for the other
  have hhalf : ∀ P Q : FileSystemSandboxPolicy, P.kind = .restricted → Q.kind = .restricted →
      (∀ root, root ∈ P.resolvedEntries crate context ↔ root ∈ Q.resolvedEntries crate context) →
      P.resolveAccess crate path context ≠ .deny →
      Q.resolveAccess crate path context = P.resolveAccess crate path context := by
    intro P Q hP hQ hmem hne
    obtain ⟨convention, entry, hcheckable, hdecides, haccess⟩ := exists_decides_of_ne_deny hP hne
    have hcheckable' : Checkable crate Q path context convention :=
      ⟨hcheckable.cwdConvention, hcheckable.pathConvention, hcheckable.pathLexical,
        hcheckable.cwdLexical, fun entry hentry => hcheckable.roots entry ((hmem entry).2 hentry)⟩
    rw [haccess, resolveAccess_of_decides hQ hcheckable']
    exact ⟨(hmem entry).1 hdecides.mem, hdecides.holds,
      fun other hother => hdecides.le other ((hmem other).2 hother)⟩
  by_cases hne : policy.resolveAccess crate path context = .deny
  · by_cases hne' : policy'.resolveAccess crate path context = .deny
    · rw [hne, hne']
    · exact hhalf policy' policy hkind' hkind (fun root => (h root).symm) hne'
  · exact (hhalf policy policy' hkind hkind' h hne).symm

end Permissions
