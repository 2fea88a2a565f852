/-
# Workspace rules made concrete

A policy may have rules for the workspace roots, given as a path below every root.
`materializeProjectRootsWithPathUris` replaces them by rules for concrete paths.  A subpath that
does not stay in its root (an absolute one, one with dot segments, another drive) is not
resolved: a `write` rule is left out, and any other rule becomes a denial of the whole root.
-/
import BetterCodex.PermissionIntersection

namespace Permissions

open RustStr Paths DeepestRule FileSystemSandboxPolicy List Option

/-! ## The code -/

/-- `PathConvention::path_segments`. -/
def pathSegments (convention : PathConvention) (path : Text) : List Text :=
  match convention with
  | .posix => path.splitOn '/'
  | .windows => path.splitOnP PathUri.isWindowsSeparator

/-- `PathConvention::home_relative_suffix`. -/
def homeRelativeSuffix (convention : PathConvention) : Text → Option Text
  | '~' :: suffix =>
    if suffix = [] ∨ suffix.head? = some '/' ∨
        (convention = .windows ∧ suffix.head? = some '\\')
    then some suffix
    else none
  | _ => none

def projectRootsGlobPatternPrefix : Text := "codex-project-roots://".toList

def resolveScopedWorkspacePath (crate : UrlCrate) (root : PathUri) (subpath : Text) :
    Option PathUri :=
  root.inferPathConvention.bind fun convention =>
    if subpath.head? = some '/' ∨
        (convention = .windows ∧ subpath.head? = some '\\') ∨
        ((pathSegments convention subpath).any fun segment =>
          segment = ".".toList || segment = "..".toList) = true ∨
        (convention = .windows ∧
          ((pathSegments convention subpath).any fun segment => segment.contains ':') = true)
    then none
    else (root.join crate subpath).filter fun path => path.startsWith root

/-- The subpath of an entry for the workspace roots, and whether it is a glob. -/
def workspaceSubpath : FileSystemPath → Option (Option Text × Bool)
  | .special (.projectRoots subpath) => some (subpath, false)
  | .globPattern pattern =>
    (stripPrefix projectRootsGlobPatternPrefix pattern).map fun subpath => (some subpath, true)
  | _ => none

/-- The path that an entry for the workspace roots is for below one of them, if it is resolved. -/
def workspaceTarget (globs : GlobServices) (crate : UrlCrate) (subpath : Option Text)
    (isGlob : Bool) (root : PathUri) : Option PathUri :=
  if isGlob && root.inferPathConvention.all fun convention =>
      !globs.validateGlobDirectory root convention
  then none
  else
    match subpath with
    | none => some root
    | some subpath => resolveScopedWorkspacePath crate root subpath

/-- What an entry becomes for one workspace root. -/
def materializeWorkspaceEntry (globs : GlobServices) (crate : UrlCrate)
    (entry : FileSystemSandboxEntry) (subpath : Option Text) (isGlob : Bool) (root : PathUri) :
    Option FileSystemSandboxEntry :=
  match workspaceTarget globs crate subpath isGlob root with
  | some path =>
    if isGlob then some { entry with path := .globPattern (globs.inferredNativePathString path) }
    else some { entry with path := .path path }
  | none =>
    if entry.access.canWrite then none
    else some { entry with path := .path root, access := .deny }

/-- `FileSystemSandboxPolicy::try_materialize_project_roots_with_path_uris`. -/
def tryMaterializeProjectRoots (globs : GlobServices) (crate : UrlCrate)
    (workspaceRoots : List PathUri) :
    List FileSystemSandboxEntry → Option (List FileSystemSandboxEntry)
  | [] => some []
  | entry :: entries =>
    match workspaceSubpath entry.path with
    | none => (tryMaterializeProjectRoots globs crate workspaceRoots entries).map (entry :: ·)
    | some (subpath, isGlob) =>
      if entry.access = .deny ∧ (subpath.any fun subpath =>
        workspaceRoots.any fun root => root.inferPathConvention.any fun convention =>
          (homeRelativeSuffix convention subpath).isSome) = true
      then none
      else
        (tryMaterializeProjectRoots globs crate workspaceRoots entries).map
          (workspaceRoots.filterMap (materializeWorkspaceEntry globs crate entry subpath isGlob) ++ ·)

def FileSystemSandboxPolicy.materializeProjectRootsWithPathUris (globs : GlobServices)
    (crate : UrlCrate) (policy : FileSystemSandboxPolicy) (workspaceRoots : List PathUri) :
    FileSystemSandboxPolicy :=
  match tryMaterializeProjectRoots globs crate workspaceRoots policy.entries with
  | some entries => { policy with entries := entries }
  | none => ofEntries []

/-! ## The rules of the concrete policy -/

/-- The rule that an entry becomes for one workspace root: one for its target, or where that is not
resolved a denial of the root, unless it is a `write` entry. -/
def workspaceRules (globs : GlobServices) (crate : UrlCrate) (entry : FileSystemSandboxEntry)
    (subpath : Option Text) (isGlob : Bool) (root : PathUri) : List (PathUri × FileSystemAccessMode) :=
  match workspaceTarget globs crate subpath isGlob root with
  | some target => if isGlob then [] else [(target, entry.access)]
  | none => if entry.access.canWrite then [] else [(root, .deny)]

/-- The rules that an entry becomes. -/
def entryRules (globs : GlobServices) (crate : UrlCrate) (context : FileSystemSandboxPolicyContext)
    (entry : FileSystemSandboxEntry) : List (PathUri × FileSystemAccessMode) :=
  match workspaceSubpath entry.path with
  | none => (entryRoots crate context entry.path).map fun root => (root, entry.access)
  | some (subpath, isGlob) =>
    context.workspaceRoots.flatMap (workspaceRules globs crate entry subpath isGlob)

/-- The rules that a policy becomes. -/
def concreteRules (globs : GlobServices) (crate : UrlCrate) (policy : FileSystemSandboxPolicy)
    (context : FileSystemSandboxPolicyContext) : List (PathUri × FileSystemAccessMode) :=
  policy.entries.flatMap fun entry => (entryRules globs crate context entry).filter fun rule =>
    rule.1.inferPathConvention = context.cwd.inferPathConvention

/-- A rule of the symbolic policy that is for a subpath of a workspace root and is not
resolved. -/
def Escapes (crate : UrlCrate) (policy : FileSystemSandboxPolicy)
    (context : FileSystemSandboxPolicyContext) (rule : PathUri × FileSystemAccessMode) : Prop :=
  ∃ entry ∈ policy.entries, entry.access = rule.2 ∧ ∃ subpath,
    entry.path = .special (.projectRoots (some subpath)) ∧ ∃ root ∈ context.workspaceRoots,
      root.join crate subpath = some rule.1 ∧ resolveScopedWorkspacePath crate root subpath = none

/-- A `deny` entry for a path below the home directory, which clears the policy. -/
def DeniesHome (workspaceRoots : List PathUri) (entry : FileSystemSandboxEntry) : Prop :=
  entry.access = .deny ∧ ∃ subpath isGlob, workspaceSubpath entry.path = some (subpath, isGlob) ∧
    (subpath.any fun subpath =>
      workspaceRoots.any fun root => root.inferPathConvention.any fun convention =>
        (homeRelativeSuffix convention subpath).isSome) = true

variable {globs : GlobServices} {crate : UrlCrate} {context : FileSystemSandboxPolicyContext}
  {policy : FileSystemSandboxPolicy} {root path target : PathUri} {entry : FileSystemSandboxEntry}

theorem join_of_resolveScoped {subpath : Text}
    (h : resolveScopedWorkspacePath crate root subpath = some path) :
    root.join crate subpath = some path := by
  rw [resolveScopedWorkspacePath] at h
  obtain ⟨convention, -, h⟩ := bind_eq_some_iff.1 h
  split_ifs at h
  exact (filter_eq_some_iff.1 h).1

theorem workspaceTarget_path {subpath : Option Text} :
    workspaceTarget globs crate subpath false root =
      subpath.elim (some root) (resolveScopedWorkspacePath crate root) := by
  cases subpath with
  | none => rfl
  | some subpath => rfl

theorem path_of_workspaceSubpath {path : FileSystemPath} {subpath : Option Text}
    (h : workspaceSubpath path = some (subpath, false)) :
    path = .special (.projectRoots subpath) := by
  cases path with
  | path path => cases h
  | globPattern pattern =>
    obtain ⟨_, -, hpair⟩ := map_eq_some_iff.1 h
    cases hpair
  | special value =>
    cases value with
    | projectRoots subpath' =>
      cases h
      rfl
    | root => cases h
    | minimal => cases h
    | tmpdir => cases h
    | slashTmp => cases h
    | unknown p subpath' => cases h

/-- A glob for the workspace roots stands for no root. -/
theorem entryRoots_of_glob {subpath : Option Text}
    (h : workspaceSubpath entry.path = some (subpath, true)) :
    entryRoots crate context entry.path = [] := by
  cases hpath : entry.path with
  | globPattern pattern => rfl
  | path path =>
    rw [hpath] at h
    cases h
  | special value =>
    rw [hpath] at h
    cases value <;> cases h

/-- **One entry below one root**: the rule of what it becomes. -/
theorem mem_rules_materializeWorkspaceEntry {subpath : Option Text} {isGlob : Bool}
    {rule : PathUri × FileSystemAccessMode} :
    (∃ made, materializeWorkspaceEntry globs crate entry subpath isGlob root = some made ∧
      made.access = rule.2 ∧ rule.1 ∈ entryRoots crate context made.path) ↔
    rule ∈ workspaceRules globs crate entry subpath isGlob root := by
  obtain ⟨path, access⟩ := rule
  rw [materializeWorkspaceEntry, workspaceRules]
  cases workspaceTarget globs crate subpath isGlob root with
  | some target => cases isGlob <;> simp [entryRoots, and_comm, eq_comm]
  | none => cases entry.access.canWrite <;> simp [entryRoots, and_comm, eq_comm]

variable {entries materialized : List FileSystemSandboxEntry}

/-- **The roots of the concrete policy are the rules that the symbolic policy becomes.** -/
theorem mem_resolvedEntries_concrete
    (h : tryMaterializeProjectRoots globs crate context.workspaceRoots entries = some materialized)
    (rule : PathUri × FileSystemAccessMode) :
    rule ∈ (ofEntries materialized).resolvedEntries crate context ↔
      rule ∈ concreteRules globs crate (ofEntries entries) context := by
  obtain ⟨path, access⟩ := rule
  rw [mem_resolvedEntries, concreteRules]
  simp only [mem_flatMap, mem_filter, decide_eq_true_eq]
  show (∃ entry ∈ materialized, _) ↔ ∃ entry ∈ entries, _
  induction entries generalizing materialized with
  | nil =>
    rw [← some.inj h]
    simp
  | cons source entries ih =>
    rw [tryMaterializeProjectRoots] at h
    rw [exists_mem_cons_iff, entryRules]
    cases hsubpath : workspaceSubpath source.path with
    | none =>
      rw [hsubpath] at h
      obtain ⟨rest, hrest, rfl⟩ := map_eq_some_iff.1 h
      rw [exists_mem_cons_iff, ih hrest]
      refine or_congr_left ?_
      simp only [List.mem_map, Prod.mk.injEq]
      constructor
      · rintro ⟨rfl, hroot, hconv⟩
        exact ⟨⟨path, hroot, rfl, rfl⟩, hconv⟩
      · rintro ⟨⟨root, hroot, rfl, rfl⟩, hconv⟩
        exact ⟨rfl, hroot, hconv⟩
    | some pair =>
      obtain ⟨subpath, isGlob⟩ := pair
      rw [hsubpath] at h
      dsimp only at h
      split_ifs at h
      obtain ⟨rest, hrest, rfl⟩ := map_eq_some_iff.1 h
      simp only [mem_append, or_and_right, exists_or, ih hrest]
      refine or_congr_left ?_
      simp only [mem_filterMap, mem_flatMap]
      constructor
      · rintro ⟨made, ⟨root, hroot, hmade⟩, haccess, hpath, hconv⟩
        exact ⟨⟨root, hroot, mem_rules_materializeWorkspaceEntry.1 ⟨made, hmade, haccess, hpath⟩⟩,
          hconv⟩
      · rintro ⟨⟨root, hroot, hrule⟩, hconv⟩
        obtain ⟨made, hmade, haccess, hpath⟩ := mem_rules_materializeWorkspaceEntry.2 hrule
        exact ⟨made, ⟨root, hroot, hmade⟩, haccess, hpath, hconv⟩

/-- The policy is cleared exactly for a denial relative to the home. -/
theorem tryMaterializeProjectRoots_eq_none_iff {workspaceRoots : List PathUri} :
    tryMaterializeProjectRoots globs crate workspaceRoots entries = none ↔
      ∃ entry ∈ entries, DeniesHome workspaceRoots entry := by
  induction entries with
  | nil => simp [tryMaterializeProjectRoots]
  | cons entry entries ih =>
    rw [tryMaterializeProjectRoots, exists_mem_cons_iff, DeniesHome]
    cases workspaceSubpath entry.path with
    | none => simp [ih]
    | some pair =>
      obtain ⟨subpath, isGlob⟩ := pair
      dsimp only
      split_ifs with hhome
      · exact iff_of_true rfl (Or.inl ⟨hhome.1, subpath, isGlob, rfl, hhome.2⟩)
      · rw [map_eq_none_iff, ih]
        refine (or_iff_right ?_).symm
        rintro ⟨hdeny, subpath', isGlob', hpair, hany⟩
        cases some.inj hpair
        exact hhome ⟨hdeny, hany⟩

variable {rule : PathUri × FileSystemAccessMode}

theorem mem_entryRoots_projectRoots {subpath : Option Text} :
    target ∈ entryRoots crate context (.special (.projectRoots subpath)) ↔
      ∃ root ∈ context.workspaceRoots,
        subpath.elim (some root) (fun subpath => root.join crate subpath) = some target := by
  rw [entryRoots, mem_filterMap]
  cases subpath with
  | none => rfl
  | some subpath => rfl

/-- **A rule that is not a denial comes from the symbolic policy.** -/
theorem mem_resolvedEntries_of_concrete (h : rule ∈ concreteRules globs crate policy context)
    (hallows : rule.2 ≠ .deny) : rule ∈ policy.resolvedEntries crate context := by
  obtain ⟨path, access⟩ := rule
  obtain ⟨entry, hentry, hrule⟩ := mem_flatMap.1 h
  obtain ⟨hrule, hconv⟩ := mem_filter.1 hrule
  rw [decide_eq_true_eq] at hconv
  rw [entryRules] at hrule
  cases hsubpath : workspaceSubpath entry.path with
  | none =>
    rw [hsubpath] at hrule
    obtain ⟨root, hroot, heq⟩ := List.mem_map.1 hrule
    cases heq
    exact mem_resolvedEntries.2 ⟨entry, hentry, rfl, hroot, hconv⟩
  | some pair =>
    obtain ⟨subpath, isGlob⟩ := pair
    rw [hsubpath] at hrule
    obtain ⟨root, hroot, hrule⟩ := mem_flatMap.1 hrule
    rw [workspaceRules] at hrule
    split at hrule
    case h_1 target htarget =>
      cases isGlob with
      | true => cases hrule
      | false =>
        cases mem_singleton.1 hrule
        refine mem_resolvedEntries.2 ⟨entry, hentry, rfl, ?_, hconv⟩
        rw [path_of_workspaceSubpath hsubpath, mem_entryRoots_projectRoots]
        refine ⟨root, hroot, ?_⟩
        rw [workspaceTarget_path] at htarget
        cases subpath with
        | none => exact htarget
        | some subpath => exact join_of_resolveScoped htarget
    case h_2 =>
      split_ifs at hrule
      · cases hrule
      · cases mem_singleton.1 hrule
        exact absurd rfl hallows

/-- **A symbolic rule is kept, or it escapes.** -/
theorem mem_concreteRules_or_escapes (globs : GlobServices)
    (h : rule ∈ policy.resolvedEntries crate context) :
    rule ∈ concreteRules globs crate policy context ∨ Escapes crate policy context rule := by
  obtain ⟨path, access⟩ := rule
  obtain ⟨entry, hentry, rfl, htarget, hconv⟩ := mem_resolvedEntries.1 h
  have hkept : (path, entry.access) ∈ entryRules globs crate context entry →
      (path, entry.access) ∈ concreteRules globs crate policy context := fun hrule =>
    mem_flatMap.2 ⟨entry, hentry, mem_filter.2 ⟨hrule, decide_eq_true hconv⟩⟩
  rw [entryRules] at hkept
  cases hsubpath : workspaceSubpath entry.path with
  | none =>
    rw [hsubpath] at hkept
    exact Or.inl (hkept (List.mem_map.2 ⟨path, htarget, rfl⟩))
  | some pair =>
    obtain ⟨subpath, isGlob⟩ := pair
    rw [hsubpath] at hkept
    cases isGlob with
    | true =>
      rw [entryRoots_of_glob hsubpath] at htarget
      exact absurd htarget not_mem_nil
    | false =>
      have hpath := path_of_workspaceSubpath hsubpath
      rw [hpath, mem_entryRoots_projectRoots] at htarget
      obtain ⟨root, hroot, hjoin⟩ := htarget
      have hresolved : workspaceTarget globs crate subpath false root = some path →
          (path, entry.access) ∈ concreteRules globs crate policy context := by
        intro htarget
        refine hkept (mem_flatMap.2 ⟨root, hroot, ?_⟩)
        rw [workspaceRules, htarget]
        exact mem_singleton_self _
      rw [workspaceTarget_path] at hresolved
      cases subpath with
      | none => exact Or.inl (hresolved hjoin)
      | some subpath =>
        cases hscoped : resolveScopedWorkspacePath crate root subpath with
        | none => exact Or.inr ⟨entry, hentry, rfl, subpath, hpath, root, hroot, hjoin, hscoped⟩
        | some path' =>
          have hsame := (join_of_resolveScoped hscoped).symm.trans hjoin
          exact Or.inl (hresolved (hscoped.trans hsame))

/-! ## The access -/

/-- The rules give the path at most the access: each rule at or above it that allows more is
outranked by one that does not. -/
def Capped (rules : List (PathUri × FileSystemAccessMode)) (path : PathUri)
    (access : FileSystemAccessMode) : Prop :=
  ∀ rule ∈ rules, Covers path rule → access.capability < rule.2.capability →
    ∃ other ∈ rules, Covers path other ∧ rank rule < rank other ∧
      other.2.capability ≤ access.capability

/-- The rule alone makes a policy give the path this access: it is ambiguous, so that everything is
denied, or it decides the path. -/
def Governs (rules : List (PathUri × FileSystemAccessMode)) (path : PathUri)
    (rule : PathUri × FileSystemAccessMode) (access : FileSystemAccessMode) : Prop :=
  HasAmbiguousRoot [rule] ∧ access = .deny ∨
    Decides rules (Covers path) rank rule ∧ access = rule.2

/-- The path can be compared with the roots of the context. -/
structure Comparable (path : PathUri) (context : FileSystemSandboxPolicyContext) : Prop where
  convention : path.inferPathConvention = context.cwd.inferPathConvention
  lexical : path.lexicalDepth.isSome = true
  cwdLexical : context.cwd.lexicalDepth.isSome = true

theorem Comparable.checkable (h : Comparable path context)
    (hroots : ¬ HasAmbiguousRoot (policy.resolvedEntries crate context)) :
    ∃ convention, Checkable crate policy path context convention := by
  obtain ⟨convention, hconv⟩ := PathUri.exists_convention_of_lexical h.lexical
  exact ⟨convention, h.convention.symm.trans hconv, hconv, h.lexical, h.cwdLexical,
    not_hasAmbiguousRoot_iff.1 hroots⟩

theorem capability_le_write (access : FileSystemAccessMode) :
    access.capability ≤ FileSystemAccessMode.write.capability := by
  cases access <;> decide

/-- What the concrete policy is made of: nothing, or the rules that the symbolic one becomes. -/
theorem concrete_cases (globs : GlobServices) (crate : UrlCrate)
    (context : FileSystemSandboxPolicyContext) (hkind : policy.kind = .restricted) :
    (∃ entry ∈ policy.entries, DeniesHome context.workspaceRoots entry) ∧
      policy.materializeProjectRootsWithPathUris globs crate context.workspaceRoots = ofEntries [] ∨
    (¬ ∃ entry ∈ policy.entries, DeniesHome context.workspaceRoots entry) ∧
      (policy.materializeProjectRootsWithPathUris globs crate context.workspaceRoots).kind =
        .restricted ∧
      ∀ rule, rule ∈ (policy.materializeProjectRootsWithPathUris globs crate
          context.workspaceRoots).resolvedEntries crate context ↔
        rule ∈ concreteRules globs crate policy context := by
  rw [materializeProjectRootsWithPathUris]
  cases hentries : tryMaterializeProjectRoots globs crate context.workspaceRoots policy.entries with
  | none => exact Or.inl ⟨tryMaterializeProjectRoots_eq_none_iff.1 hentries, rfl⟩
  | some entries =>
    refine Or.inr ⟨fun hhome => ?_, hkind, mem_resolvedEntries_concrete hentries⟩
    rw [tryMaterializeProjectRoots_eq_none_iff.2 hhome] at hentries
    cases hentries

theorem resolveAccess_ofEntries_nil (path : PathUri) :
    (ofEntries []).resolveAccess crate path context = .deny := by
  by_contra hne
  obtain ⟨-, root, -, hdecides, -⟩ := exists_decides_of_ne_deny rfl hne
  exact absurd hdecides.mem not_mem_nil

/-- A rule that governs a path bounds what the policy gives it. -/
theorem capability_le_of_governs (hkind : policy.kind = .restricted)
    {access : FileSystemAccessMode} (hrule : rule ∈ policy.resolvedEntries crate context)
    (h : Governs (policy.resolvedEntries crate context) path rule access) :
    (policy.resolveAccess crate path context).capability ≤ access.capability := by
  by_cases hdeny : policy.resolveAccess crate path context = .deny
  · rw [hdeny]
    exact Nat.zero_le _
  obtain ⟨_, hcheckable⟩ := exists_checkable_of_ne_deny hkind hdeny
  rcases h with ⟨⟨root, hroot, hambiguous⟩, -⟩ | ⟨hdecides, rfl⟩
  · rw [mem_singleton.1 hroot] at hambiguous
    exact absurd ⟨rule, hrule, hambiguous⟩ (not_hasAmbiguousRoot_iff.2 hcheckable.roots)
  · rw [resolveAccess_of_decides hkind hcheckable hdecides]

/-- **Rules that escape are all that matters**: if what they give bounds what the concrete rules give,
the concrete policy gives no more than the symbolic one. -/
theorem access_materialized_le
    (h : ∀ rule ∈ policy.resolvedEntries crate context, Escapes crate policy context rule →
      ∀ access, Governs (policy.resolvedEntries crate context) path rule access →
        Capped (concreteRules globs crate policy context) path access) :
    ((policy.materializeProjectRootsWithPathUris globs crate context.workspaceRoots).resolveAccess
        crate path context).capability ≤ (policy.resolveAccess crate path context).capability := by
  by_cases hkind : policy.kind = .restricted
  swap
  · rw [resolveAccess_unrestricted hkind]
    exact capability_le_write _
  by_cases hdeny : (policy.materializeProjectRootsWithPathUris globs crate
      context.workspaceRoots).resolveAccess crate path context = .deny
  · rw [hdeny]
    exact Nat.zero_le _
  rcases concrete_cases globs crate context hkind with ⟨-, hempty⟩ | ⟨-, hkind', hmem⟩
  · rw [hempty, resolveAccess_ofEntries_nil] at hdeny
    exact absurd rfl hdeny
  obtain ⟨convention, kept, hcheckable, hkept, haccess⟩ := exists_decides_of_ne_deny hkind' hdeny
  have hallows : kept.2 ≠ .deny := by rwa [← haccess]
  have hconcrete := (hmem kept).1 hkept.mem
  have hsource := mem_resolvedEntries_of_concrete hconcrete hallows
  have hcap : ∀ access, Capped (concreteRules globs crate policy context) path access →
      kept.2.capability ≤ access.capability := by
    intro access hcapped
    by_contra hlt
    obtain ⟨other, hother, hcovers, hrank, -⟩ :=
      hcapped kept hconcrete hkept.holds (not_le.1 hlt)
    exact absurd (hkept.le other ((hmem other).2 hother) hcovers) (not_le.2 hrank)
  -- an ambiguous rule would be a concrete one as well, or bound everything by `deny`
  have hunambiguous : ¬ HasAmbiguousRoot (policy.resolvedEntries crate context) := by
    rintro ⟨rule, hrule, hambiguous⟩
    rcases mem_concreteRules_or_escapes globs hrule with hstays | hescapes
    · exact not_hasAmbiguousRoot_iff.2 hcheckable.roots ⟨rule, (hmem rule).2 hstays, hambiguous⟩
    · have hle := hcap .deny (h rule hrule hescapes .deny
        (Or.inl ⟨⟨rule, mem_singleton_self rule, hambiguous⟩, rfl⟩))
      exact hallows (eq_deny_of_capability_le hle)
  have hsymbolic : Checkable crate policy path context convention :=
    ⟨hcheckable.cwdConvention, hcheckable.pathConvention, hcheckable.pathLexical,
      hcheckable.cwdLexical, not_hasAmbiguousRoot_iff.1 hunambiguous⟩
  rcases resolveAccess_cases hkind hsymbolic with ⟨rule, hrule, hruleAccess⟩ | ⟨hnone, -⟩
  · rw [hruleAccess, haccess]
    rcases mem_concreteRules_or_escapes globs hrule.mem with hstays | hescapes
    · have hrank : rank kept = rank rule :=
        le_antisymm (hrule.le kept hsource hkept.holds)
          (hkept.le rule ((hmem rule).2 hstays) hrule.holds)
      rw [access_eq_of_rank_eq hrank]
    · exact hcap rule.2 (h rule hrule.mem hescapes rule.2 (Or.inr ⟨hrule, rfl⟩))
  · exact absurd hkept.holds (hnone kept hsource)

/-- **Rules that stay in their root.**  If only `write` rules escape, and to paths that are not
ambiguous, the concrete policy gives every path no more than the symbolic one. -/
theorem access_materialized_le_of_scoped (globs : GlobServices)
    (h : ∀ rule ∈ policy.resolvedEntries crate context, Escapes crate policy context rule →
      rule.2 = .write ∧ ¬ HasAmbiguousRoot [rule]) (path : PathUri) :
    ((policy.materializeProjectRootsWithPathUris globs crate context.workspaceRoots).resolveAccess
        crate path context).capability ≤ (policy.resolveAccess crate path context).capability := by
  refine access_materialized_le fun rule hrule hescapes access hgoverns other _ _ hlt => ?_
  obtain ⟨hwrite, hunambiguous⟩ := h rule hrule hescapes
  rcases hgoverns with ⟨hambiguous, -⟩ | ⟨-, rfl⟩
  · exact absurd hambiguous hunambiguous
  · rw [hwrite] at hlt
    exact absurd (capability_le_write other.2) (not_le.2 hlt)

/-- **Concrete workspace rules.**  The concrete policy gives a path no more than the symbolic one
exactly if the policy is not restricted, or nothing is given because of a denial below the home
directory, a path that cannot be compared or an ambiguous rule, or every rule that escapes and
governs the path in the symbolic policy allows as much as the concrete rules leave. -/
theorem access_materialized_le_iff (globs : GlobServices) (crate : UrlCrate)
    (policy : FileSystemSandboxPolicy) (context : FileSystemSandboxPolicyContext) (path : PathUri) :
    ((policy.materializeProjectRootsWithPathUris globs crate context.workspaceRoots).resolveAccess
        crate path context).capability ≤ (policy.resolveAccess crate path context).capability ↔
      policy.kind ≠ .restricted ∨
      (∃ entry ∈ policy.entries, DeniesHome context.workspaceRoots entry) ∨
      ¬ Comparable path context ∨ HasAmbiguousRoot (concreteRules globs crate policy context) ∨
      ∀ rule ∈ policy.resolvedEntries crate context, Escapes crate policy context rule →
        ∀ access, Governs (policy.resolvedEntries crate context) path rule access →
          Capped (concreteRules globs crate policy context) path access := by
  by_cases hkind : policy.kind = .restricted
  swap
  · rw [resolveAccess_unrestricted hkind]
    exact iff_of_true (capability_le_write _) (Or.inl hkind)
  rw [or_iff_right (not_not.2 hkind)]
  constructor
  · intro hle
    refine or_iff_not_imp_left.2 fun hhome => or_iff_not_imp_left.2 fun hcomparable =>
      or_iff_not_imp_left.2 fun hunambiguous rule hrule _ access hgoverns => ?_
    rcases concrete_cases globs crate context hkind with ⟨hdenies, -⟩ | ⟨-, hkind', hmem⟩
    · exact absurd hdenies hhome
    have hroots : ¬ HasAmbiguousRoot ((policy.materializeProjectRootsWithPathUris globs crate
        context.workspaceRoots).resolvedEntries crate context) := by
      rintro ⟨root, hroot, hambiguous⟩
      exact hunambiguous ⟨root, (hmem root).1 hroot, hambiguous⟩
    obtain ⟨_, hcheckable⟩ := (not_not.1 hcomparable).checkable hroots
    have hcapped := (resolveAccess_iff hkind' hcheckable
      fun given => given.capability ≤ access.capability).1
        (hle.trans (capability_le_of_governs hkind hrule hgoverns))
    intro other hother hcovers hlt
    obtain ⟨stronger, hstronger, hrest⟩ :=
      hcapped.2 other ((hmem other).2 hother) hcovers (not_le.2 hlt)
    exact ⟨stronger, (hmem stronger).1 hstronger, hrest⟩
  · intro h
    by_cases hdeny : (policy.materializeProjectRootsWithPathUris globs crate
        context.workspaceRoots).resolveAccess crate path context = .deny
    · rw [hdeny]
      exact Nat.zero_le _
    rcases concrete_cases globs crate context hkind with ⟨-, hempty⟩ | ⟨hnoHome, hkind', hmem⟩
    · rw [hempty, resolveAccess_ofEntries_nil] at hdeny
      exact absurd rfl hdeny
    obtain ⟨convention, hcheckable⟩ := exists_checkable_of_ne_deny hkind' hdeny
    rcases h with hhome | hcomparable | ⟨rule, hrule, hambiguous⟩ | hescapes
    · exact absurd hhome hnoHome
    · exact absurd ⟨hcheckable.pathConvention.trans hcheckable.cwdConvention.symm,
        hcheckable.pathLexical, hcheckable.cwdLexical⟩ hcomparable
    · exact absurd ⟨rule, (hmem rule).2 hrule, hambiguous⟩
        (not_hasAmbiguousRoot_iff.2 hcheckable.roots)
    · exact access_materialized_le hescapes

/-- Everything is writable but a path beside the workspace root. -/
def denyBeside : FileSystemSandboxPolicy :=
  .ofEntries
    [{ path := .special .root, access := .write },
     { path := .special (.projectRoots (some "../work".toList)), access := .deny }]

/-- **A denial is lost.**  In a workspace `/a`, a rule that denies `../work` denies `/work`.  Made
concrete, the rule denies `/a` instead, and `/work` may be written. -/
theorem denied_sibling_is_writable :
    denyBeside.resolveAccess .percentEncoding slashWork
      { contextOf slashA with workspaceRoots := [slashA] } = .deny ∧
    (denyBeside.materializeProjectRootsWithPathUris .noGlobs .percentEncoding [slashA]).resolveAccess
      .percentEncoding slashWork { contextOf slashA with workspaceRoots := [slashA] } = .write := by
  decide

end Permissions
