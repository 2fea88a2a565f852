/-
# The access that an intersection gives

A permission profile gives a path the access of the deepest of its roots.  This file compares
what the intersection of a requested and a granted profile gives with what the two give.
-/
import BetterCodex.MetadataProtection
import BetterCodex.PermissionProfiles

namespace Permissions

open RustStr Paths DeepestRule FileSystemSandboxPolicy List FileSystemAccessMode

variable {globs : GlobServices} {crate : UrlCrate} {context : FileSystemSandboxPolicyContext}

/-! ## Materialised entries -/

/-- A materialised entry stands for one root, or for none. -/
def OneTarget (crate : UrlCrate) (context : FileSystemSandboxPolicyContext)
    (entry : FileSystemSandboxEntry) : Prop :=
  entryRoots crate context entry.path = (resolvePermissionPath crate context entry.path).toList

/-- The entries that an entry becomes have its access and its roots. -/
structure Materializes (crate : UrlCrate) (context : FileSystemSandboxPolicyContext)
    (source materialized : List FileSystemSandboxEntry) : Prop where
  oneTarget : ∀ entry ∈ materialized, OneTarget crate context entry
  mem_iff : ∀ root access,
    (∃ entry ∈ materialized, entry.access = access ∧ root ∈ entryRoots crate context entry.path) ↔
      ∃ entry ∈ source, entry.access = access ∧ root ∈ entryRoots crate context entry.path

theorem Materializes.nil : Materializes crate context [] [] :=
  ⟨fun _ h => absurd h not_mem_nil, fun _ _ => Iff.rfl⟩

variable {materialized : List FileSystemSandboxEntry}

theorem Materializes.append {source source' materialized' : List FileSystemSandboxEntry}
    (h : Materializes crate context source materialized)
    (h' : Materializes crate context source' materialized') :
    Materializes crate context (source ++ source') (materialized ++ materialized') := by
  refine ⟨fun entry hentry => ?_, fun root access => ?_⟩
  · rcases mem_append.1 hentry with hleft | hright
    · exact h.oneTarget entry hleft
    · exact h'.oneTarget entry hright
  · simp only [mem_append, or_and_right, exists_or, h.mem_iff, h'.mem_iff]

variable {entry : FileSystemSandboxEntry}

theorem Materializes.refl (h : OneTarget crate context entry) :
    Materializes crate context [entry] [entry] := by
  refine ⟨fun e he => ?_, fun root access => Iff.rfl⟩
  rw [mem_singleton.1 he]
  exact h

theorem Materializes.of_no_roots {source : List FileSystemSandboxEntry}
    (hsource : ∀ entry ∈ source, entryRoots crate context entry.path = [])
    (honeTarget : ∀ entry ∈ materialized, OneTarget crate context entry)
    (hmaterialized : ∀ entry ∈ materialized, entryRoots crate context entry.path = []) :
    Materializes crate context source materialized := by
  refine ⟨honeTarget, fun root access => iff_of_false ?_ ?_⟩
  · rintro ⟨entry, hentry, -, hroot⟩
    rw [hmaterialized entry hentry] at hroot
    exact absurd hroot not_mem_nil
  · rintro ⟨entry, hentry, -, hroot⟩
    rw [hsource entry hentry] at hroot
    exact absurd hroot not_mem_nil

/-- An entry can be replaced by one entry for each of its roots. -/
theorem Materializes.paths (entry : FileSystemSandboxEntry) :
    Materializes crate context [entry]
      ((entryRoots crate context entry.path).map (materializedPathEntry entry)) := by
  refine ⟨fun e he => ?_, fun root access => ?_⟩
  · obtain ⟨path, -, rfl⟩ := mem_map.1 he
    rfl
  · constructor
    · rintro ⟨e, he, haccess, hroot⟩
      obtain ⟨path, hpath, rfl⟩ := mem_map.1 he
      refine ⟨entry, mem_singleton_self entry, haccess, ?_⟩
      rw [mem_singleton.1 hroot]
      exact hpath
    · rintro ⟨e, he, haccess, hroot⟩
      rw [mem_singleton.1 he] at haccess hroot
      exact ⟨materializedPathEntry entry root, mem_map.2 ⟨root, hroot, rfl⟩, haccess,
        mem_singleton_self root⟩

open Materializes

/-- **One entry**: what it becomes has its access and its roots. -/
theorem materializes_entry
    (h : materializeContextDependentEntry globs crate context entry = some materialized) :
    Materializes crate context [entry] materialized := by
  rw [materializeContextDependentEntry] at h
  split at h
  case h_1 subpath hpath =>
    dsimp only at h
    split_ifs at h
    have hroots : (context.workspaceRoots.map fun root => resolvePermissionPath crate
        { context with workspaceRoots := [root] } entry.path).reduceOption =
        entryRoots crate context entry.path := by
      rw [hpath, List.reduceOption, filterMap_map, entryRoots]
      refine congrArg (List.filterMap · context.workspaceRoots) (funext fun root => ?_)
      cases subpath with
      | none => rfl
      | some subpath => rfl
    rw [← Option.some.inj h, hroots]
    exact paths entry
  case h_2 hpath =>
    cases hdirs : context.temporaryDirectories with
    | none =>
      rw [hdirs] at h
      split_ifs at h
      rw [← Option.some.inj h]
      refine refl ?_
      rw [OneTarget, hpath, entryRoots, resolvePermissionPath, hdirs]
      rfl
    | some dirs =>
      rw [hdirs] at h
      have hroots : dirs = entryRoots crate context entry.path := by
        rw [hpath, entryRoots, hdirs, Option.getD_some]
      rw [← Option.some.inj h, hroots]
      exact paths entry
  case h_3 hpath =>
    obtain ⟨root, -, hroot⟩ := Option.map_eq_some_iff.1 h
    rw [← hroot]
    refine refl ?_
    rw [OneTarget, hpath]
    rfl
  case h_4 hprojectRoots htmpdir hroot =>
    rw [materializeCwdDependentEntry] at h
    cases hpath : entry.path with
    | globPattern pattern =>
      -- a glob stands for no root, whatever it is rewritten to
      rw [hpath] at h
      dsimp only at h
      have hsource : ∀ e ∈ [entry], entryRoots crate context e.path = [] := by
        intro e he
        rw [mem_singleton.1 he, hpath]
        rfl
      cases hglob : materializeGlobPattern globs crate context pattern with
      | none =>
        rw [hglob] at h
        dsimp only [Option.map] at h
        split_ifs at h
        rw [← Option.some.inj h]
        exact of_no_roots hsource (fun e he => absurd he not_mem_nil)
          (fun e he => absurd he not_mem_nil)
      | some absolute =>
        rw [hglob] at h
        rw [← Option.some.inj h]
        refine of_no_roots hsource (fun e he => ?_) (fun e he => ?_)
        · rw [mem_singleton.1 he]
          rfl
        · rw [mem_singleton.1 he]
          rfl
    | path path =>
      rw [hpath] at h
      rw [← Option.some.inj h]
      refine refl ?_
      rw [OneTarget, hpath]
      rfl
    | special value =>
      rw [hpath] at h
      rw [← Option.some.inj h]
      refine refl ?_
      rw [OneTarget, hpath]
      cases value with
      | root => exact absurd hpath hroot
      | tmpdir => exact absurd hpath htmpdir
      | projectRoots subpath => exact absurd hpath (hprojectRoots subpath)
      | minimal => rfl
      | unknown p subpath => rfl
      | slashTmp =>
        rw [entryRoots, resolvePermissionPath]
        split_ifs
        · rfl
        · rfl

variable {entries : List FileSystemSandboxEntry}

/-- Materialised entries have the roots of the entries they come from. -/
theorem materializes_entries
    (h : materializeContextDependentEntries globs crate context entries = some materialized) :
    Materializes crate context entries materialized := by
  induction entries generalizing materialized with
  | nil =>
    rw [← Option.some.inj h]
    exact nil
  | cons entry entries ih =>
    rw [materializeContextDependentEntries] at h
    obtain ⟨first, hfirst, hrest⟩ := Option.bind_eq_some_iff.1 h
    obtain ⟨rest, hrest, hall⟩ := Option.bind_eq_some_iff.1 hrest
    rw [← Option.some.inj hall]
    exact (materializes_entry hfirst).append (ih hrest)

/-- **Materialising keeps the roots.** -/
theorem mem_resolvedEntries_materialized (h : Materializes crate context entries materialized)
    (root : PathUri × FileSystemAccessMode) :
    root ∈ (ofEntries materialized).resolvedEntries crate context ↔
      root ∈ (ofEntries entries).resolvedEntries crate context := by
  obtain ⟨root, access⟩ := root
  have hiff := h.mem_iff root access
  rw [mem_resolvedEntries, mem_resolvedEntries]
  constructor
  · rintro ⟨entry, hentry, haccess, hroot, hconv⟩
    obtain ⟨source, hsource, haccess', hroot'⟩ := hiff.1 ⟨entry, hentry, haccess, hroot⟩
    exact ⟨source, hsource, haccess', hroot', hconv⟩
  · rintro ⟨entry, hentry, haccess, hroot, hconv⟩
    obtain ⟨target, htarget, haccess', hroot'⟩ := hiff.2 ⟨entry, hentry, haccess, hroot⟩
    exact ⟨target, htarget, haccess', hroot', hconv⟩

/-! ## Lists without repetitions -/

theorem mem_foldl_pushNew {added : List FileSystemSandboxEntry}
    (h : entry ∈ added.foldl pushNew entries) : entry ∈ entries ∨ entry ∈ added := by
  induction added generalizing entries with
  | nil => exact Or.inl h
  | cons first added ih =>
    rcases ih h with hmem | hmem
    · rw [pushNew] at hmem
      split_ifs at hmem
      · exact Or.inl hmem
      · rcases mem_append.1 hmem with hold | hnew
        · exact Or.inl hold
        · exact Or.inr (mem_cons.2 (Or.inl (mem_singleton.1 hnew)))
    · exact Or.inr (mem_cons_of_mem _ hmem)

theorem mem_foldl_pushNew_of_mem (added : List FileSystemSandboxEntry) (h : entry ∈ entries) :
    entry ∈ added.foldl pushNew entries := by
  induction added generalizing entries with
  | nil => exact h
  | cons first added ih =>
    refine ih ?_
    rw [pushNew]
    split_ifs
    · exact h
    · exact mem_append_left _ h

theorem beq_entry_iff {entry' : FileSystemSandboxEntry} :
    (entry == entry') = true ↔ (entry.path == entry'.path) = true ∧ entry.access = entry'.access ∧
      entry.missingPathBehavior = entry'.missingPathBehavior := by
  show ((entry.path == entry'.path) && ((entry.access == entry'.access) &&
    (entry.missingPathBehavior == entry'.missingPathBehavior))) = true ↔ _
  rw [Bool.and_eq_true, Bool.and_eq_true]
  exact and_congr Iff.rfl (and_congr beq_iff_eq beq_iff_eq)

theorem beq_refl_path (path : FileSystemPath) : (path == path) = true := by
  cases path with
  | path path => exact PathUri.beq_refl path
  | globPattern pattern => exact beq_self_eq_true pattern
  | special value => exact beq_self_eq_true value

theorem beq_refl_entry (entry : FileSystemSandboxEntry) : (entry == entry) = true :=
  beq_entry_iff.2 ⟨beq_refl_path entry.path, rfl, rfl⟩

/-- Equal paths are resolved to equal roots. -/
theorem resolvePermissionPath_of_beq {path path' : FileSystemPath} (h : (path == path') = true)
    {root : PathUri} (hroot : resolvePermissionPath crate context path = some root) :
    ∃ root', resolvePermissionPath crate context path' = some root' ∧ (root == root') = true := by
  cases path with
  | path path =>
    cases path' with
    | path path' =>
      rw [← Option.some.inj hroot]
      exact ⟨path', rfl, h⟩
    | globPattern pattern => cases h
    | special value => cases h
  | globPattern pattern => cases hroot
  | special value =>
    cases path' with
    | path path' => cases h
    | globPattern pattern => cases h
    | special value' =>
      have heq : value = value' := eq_of_beq (h : (value == value') = true)
      rw [← heq]
      exact ⟨root, hroot, PathUri.beq_refl root⟩

/-- What is added is there, up to the comparison of entries. -/
theorem exists_beq_of_mem_added (entries : List FileSystemSandboxEntry)
    {added : List FileSystemSandboxEntry} (h : entry ∈ added) :
    ∃ entry' ∈ added.foldl pushNew entries, (entry == entry') = true := by
  induction added generalizing entries with
  | nil => exact absurd h not_mem_nil
  | cons first added ih =>
    rcases mem_cons.1 h with rfl | hmem
    · by_cases hcontains : entries.contains entry = true
      · obtain ⟨entry', hentry', hbeq⟩ := contains_iff_exists_mem_beq.1 hcontains
        rw [foldl_cons, pushNew, if_pos hcontains]
        exact ⟨entry', mem_foldl_pushNew_of_mem added hentry', hbeq⟩
      · rw [foldl_cons, pushNew, if_neg hcontains]
        exact ⟨entry, mem_foldl_pushNew_of_mem added
          (mem_append_right _ (mem_singleton_self entry)), beq_refl_entry entry⟩
    · exact ih _ hmem

/-! ## The entries of the intersection -/

theorem eq_deny_of_capability_le {access : FileSystemAccessMode}
    (h : access.capability ≤ deny.capability) : access = .deny := by
  cases access with
  | deny => rfl
  | read => exact absurd h (by decide)
  | write => exact absurd h (by decide)

theorem accessCovers_iff {requested granted : FileSystemAccessMode} :
    accessCovers requested granted = true ↔
      granted ≠ .deny ∧ granted.capability ≤ requested.capability := by
  cases requested <;> cases granted <;> decide

/-- What the request says about a granted entry that it covers. -/
theorem of_withinRequest {requested : FileSystemPermissions} {policy : FileSystemSandboxPolicy}
    {matcher : Option PreparedReadDenyMatcher} {root : PathUri}
    (h : grantedFileSystemEntryWithinRequest globs crate requested policy matcher context entry = true)
    (hroot : resolvePermissionPath crate context entry.path = some root) :
    entry.access ≠ .deny ∧
      entry.access.capability ≤ (policy.resolveAccess crate root context).capability := by
  rw [grantedFileSystemEntryWithinRequest, hroot] at h
  split_ifs at h
  dsimp only at h
  split_ifs at h
  exact accessCovers_iff.1 h

/-! ## Profiles -/

/-- The file-system permissions of a profile; none are no entries. -/
def AdditionalPermissionProfile.permissions (profile : AdditionalPermissionProfile) :
    FileSystemPermissions :=
  profile.fileSystem.getD {}

/-- The roots of the entries of a profile. -/
def AdditionalPermissionProfile.roots (crate : UrlCrate) (profile : AdditionalPermissionProfile)
    (context : FileSystemSandboxPolicyContext) : List (PathUri × FileSystemAccessMode) :=
  (ofEntries profile.permissions.entries).resolvedEntries crate context

/-- The access that the entries of a profile give a path. -/
def AdditionalPermissionProfile.access (crate : UrlCrate) (profile : AdditionalPermissionProfile)
    (path : PathUri) (context : FileSystemSandboxPolicyContext) : FileSystemAccessMode :=
  (ofEntries profile.permissions.entries).resolveAccess crate path context

/-- The entries that an intersection is made of: the granted entries that the request covers, and
the `deny` entries of both sides that bear on one of them. -/
def keptEntries (globs : GlobServices) (crate : UrlCrate)
    (requested granted : AdditionalPermissionProfile) (context : FileSystemSandboxPolicyContext) :
    List FileSystemSandboxEntry :=
  match requested.fileSystem,
    materializeContextDependentEntries globs crate context requested.permissions.entries,
    materializeContextDependentEntries globs crate context granted.permissions.entries with
  | some requestedPermissions, some requestedEntries, some grantedEntries =>
    let accepted := (acceptedEntries globs crate context requestedPermissions requestedEntries
      grantedEntries).foldl pushNew []
    (constrainingDenyEntries crate context grantedEntries accepted).foldl pushNew
      ((constrainingDenyEntries crate context requestedEntries accepted).foldl pushNew accepted)
  | _, _, _ => []

variable {requested granted : AdditionalPermissionProfile}

/-- The entries of the intersection are those that it is made of. -/
theorem entries_intersect (globs : GlobServices) (crate : UrlCrate)
    (requested granted : AdditionalPermissionProfile) (context : FileSystemSandboxPolicyContext) :
    (intersectPermissionProfilesWithContext globs crate requested granted
      context).permissions.entries = keptEntries globs crate requested granted context := by
  have hfilter : ∀ permissions : Option FileSystemPermissions,
      ((permissions.filter fun permissions => !permissions.entries.isEmpty).getD {}).entries =
        (permissions.getD {}).entries := by
    intro permissions
    cases permissions with
    | none => rfl
    | some permissions =>
      rw [Option.filter_some]
      -- an intersection without entries is left out
      cases hempty : permissions.entries.isEmpty with
      | false => rfl
      | true => exact (isEmpty_iff.1 hempty).symm
  rw [AdditionalPermissionProfile.permissions, intersectPermissionProfilesWithContext, hfilter,
    keptEntries]
  cases hrequested : requested.fileSystem with
  | none => rfl
  | some permissions =>
    rw [Option.bind_some, intersectFileSystemPermissions, AdditionalPermissionProfile.permissions,
      AdditionalPermissionProfile.permissions, hrequested, Option.getD_some]
    cases materializeContextDependentEntries globs crate context permissions.entries with
    | none => rfl
    | some requestedEntries =>
      cases materializeContextDependentEntries globs crate context
        (granted.fileSystem.getD {}).entries with
      | none => rfl
      | some grantedEntries => rfl

/-! ## The entries of the intersection -/

variable {requestedEntries grantedEntries entries : List FileSystemSandboxEntry}

/-- What the entries of an intersection are. -/
structure IsIntersection (globs : GlobServices) (crate : UrlCrate)
    (context : FileSystemSandboxPolicyContext) (requested granted : AdditionalPermissionProfile)
    (requestedEntries grantedEntries entries : List FileSystemSandboxEntry) : Prop where
  request : materializeContextDependentEntries globs crate context requested.permissions.entries =
    some requestedEntries
  grant : materializeContextDependentEntries globs crate context granted.permissions.entries =
    some grantedEntries
  sound : ∀ entry ∈ entries,
    entry ∈ acceptedEntries globs crate context requested.permissions requestedEntries
        grantedEntries ∨
      entry.access = .deny ∧ (entry ∈ requestedEntries ∨ entry ∈ grantedEntries)
  denies : ∀ denyEntry, denyEntry ∈ requestedEntries ∨ denyEntry ∈ grantedEntries →
    denyEntry.access = .deny → ∀ denyPath,
      resolvePermissionPath crate context denyEntry.path = some denyPath →
      ∀ entry ∈ entries, entry.access ≠ .deny → ∀ grantPath,
        resolvePermissionPath crate context entry.path = some grantPath →
        pathsOverlap denyPath grantPath = true → ∃ entry' ∈ entries, (denyEntry == entry') = true

/-- An accepted entry whose path overlaps a `deny` entry makes it stay. -/
theorem constrains_of_overlap {accepted : List FileSystemSandboxEntry}
    {denyEntry : FileSystemSandboxEntry} {denyPath grantPath : PathUri}
    (hdeny : resolvePermissionPath crate context denyEntry.path = some denyPath)
    (hentry : entry ∈ accepted) (haccess : entry.access ≠ .deny)
    (hgrant : resolvePermissionPath crate context entry.path = some grantPath)
    (hoverlap : pathsOverlap denyPath grantPath = true) :
    denyEntryConstrainsAcceptedGrant crate context accepted denyEntry = true := by
  rw [denyEntryConstrainsAcceptedGrant, any_eq_true]
  refine ⟨entry, mem_filter.2 ⟨hentry, ?_⟩, ?_⟩
  · rw [canRead, decide_eq_true_eq]
    exact haccess
  · split_ifs
    · rfl
    · rw [hgrant]
      cases hpath : denyEntry.path with
      | globPattern pattern =>
        rw [hpath] at hdeny
        cases hdeny
      | path path =>
        rw [hpath] at hdeny
        dsimp only
        rw [hdeny]
        exact hoverlap
      | special value =>
        rw [hpath] at hdeny
        dsimp only
        rw [hdeny]
        exact hoverlap

open Option

/-- The entries of an intersection come from materialised entries of both sides. -/
theorem isIntersection_keptEntries (h : entry ∈ keptEntries globs crate requested granted context) :
    ∃ requestedEntries grantedEntries,
      IsIntersection globs crate context requested granted requestedEntries grantedEntries
        (keptEntries globs crate requested granted context) := by
  rw [keptEntries] at h ⊢
  split at h
  case h_2 => exact absurd h not_mem_nil
  case h_1 permissions requestedEntries grantedEntries hrequested hrequest hgrant =>
  have hpermissions : requested.permissions = permissions := by
    rw [AdditionalPermissionProfile.permissions, hrequested, getD_some]
  subst hpermissions
  dsimp only
  generalize haccepted : (acceptedEntries globs crate context requested.permissions
    requestedEntries grantedEntries).foldl pushNew [] = accepted
  -- what is in the list is accepted, or one of the `deny` entries that stay
  have hmem : ∀ entry, entry ∈ (constrainingDenyEntries crate context grantedEntries accepted).foldl
      pushNew ((constrainingDenyEntries crate context requestedEntries accepted).foldl pushNew
        accepted) →
      entry ∈ accepted ∨ entry.access = .deny ∧ (entry ∈ requestedEntries ∨ entry ∈ grantedEntries) := by
    intro entry hentry
    rcases mem_foldl_pushNew hentry with hentry | hentry
    · rcases mem_foldl_pushNew hentry with hentry | hentry
      · exact Or.inl hentry
      · obtain ⟨hentry, hdeny⟩ := mem_filter.1 hentry
        rw [Bool.and_eq_true, decide_eq_true_eq] at hdeny
        exact Or.inr ⟨hdeny.1, Or.inl hentry⟩
    · obtain ⟨hentry, hdeny⟩ := mem_filter.1 hentry
      rw [Bool.and_eq_true, decide_eq_true_eq] at hdeny
      exact Or.inr ⟨hdeny.1, Or.inr hentry⟩
  refine ⟨requestedEntries, grantedEntries, hrequest, hgrant, fun entry hentry => ?_, ?_⟩
  · refine (hmem entry hentry).imp_left fun hentry => ?_
    rw [← haccepted] at hentry
    exact (mem_foldl_pushNew hentry).resolve_left not_mem_nil
  · intro denyEntry hsource hdeny denyPath hdenyPath entry hentry haccess grantPath hgrantPath
      hoverlap
    have hentryAccepted : entry ∈ accepted :=
      (hmem entry hentry).resolve_right fun hdenied => haccess hdenied.1
    have hconstrains := constrains_of_overlap hdenyPath hentryAccepted haccess hgrantPath hoverlap
    have hstays : ∀ source : List FileSystemSandboxEntry, denyEntry ∈ source →
        denyEntry ∈ constrainingDenyEntries crate context source accepted := by
      intro source hsource
      refine mem_filter.2 ⟨hsource, ?_⟩
      rw [hdeny, hconstrains]
      rfl
    rcases hsource with hsource | hsource
    · obtain ⟨entry', hentry', hbeq⟩ := exists_beq_of_mem_added accepted (hstays _ hsource)
      exact ⟨entry', mem_foldl_pushNew_of_mem _ hentry', hbeq⟩
    · exact exists_beq_of_mem_added _ (hstays _ hsource)

section
variable (h : IsIntersection globs crate context requested granted requestedEntries grantedEntries entries)
include h

theorem IsIntersection.oneTarget (hentry : entry ∈ entries) : OneTarget crate context entry := by
  rcases h.sound entry hentry with haccepted | ⟨-, hsource | hsource⟩
  · exact (materializes_entries h.grant).oneTarget entry (mem_filter.1 haccepted).1
  · exact (materializes_entries h.request).oneTarget entry hsource
  · exact (materializes_entries h.grant).oneTarget entry hsource

variable {root : PathUri × FileSystemAccessMode}

/-- A root of the intersection that allows something is one of the grant, and the request gives it as
much. -/
theorem IsIntersection.accepted (hroot : root ∈ (ofEntries entries).resolvedEntries crate context)
    (hallows : root.2 ≠ .deny) :
    root ∈ granted.roots crate context ∧
      root.2.capability ≤ (requested.access crate root.1 context).capability := by
  obtain ⟨root, access⟩ := root
  obtain ⟨entry, hentry, rfl, htarget, hconv⟩ := mem_resolvedEntries.1 hroot
  have haccepted := (h.sound entry hentry).resolve_right fun hdenied => hallows hdenied.1
  obtain ⟨hsource, hwithin⟩ := mem_filter.1 haccepted
  have hresolve := htarget
  rw [h.oneTarget hentry, mem_toList] at hresolve
  obtain ⟨-, hcovers⟩ := of_withinRequest hwithin hresolve
  refine ⟨?_, ?_⟩
  · rw [AdditionalPermissionProfile.roots,
      ← mem_resolvedEntries_materialized (materializes_entries h.grant)]
    exact mem_resolvedEntries.2 ⟨entry, hsource, rfl, htarget, hconv⟩
  · rw [resolveAccess_congr rfl rfl
      (mem_resolvedEntries_materialized (materializes_entries h.request))] at hcovers
    exact hcovers

/-- An intersection has only roots of the two profiles. -/
theorem IsIntersection.mem_roots (hroot : root ∈ (ofEntries entries).resolvedEntries crate context) :
    root ∈ requested.roots crate context ++ granted.roots crate context := by
  by_cases hdeny : root.2 = .deny
  · obtain ⟨root, access⟩ := root
    obtain ⟨entry, hentry, rfl, htarget, hconv⟩ := mem_resolvedEntries.1 hroot
    rw [mem_append, AdditionalPermissionProfile.roots, AdditionalPermissionProfile.roots,
      ← mem_resolvedEntries_materialized (materializes_entries h.request),
      ← mem_resolvedEntries_materialized (materializes_entries h.grant)]
    rcases h.sound entry hentry with haccepted | ⟨-, hsource⟩
    · exact Or.inr (mem_resolvedEntries.2
        ⟨entry, (mem_filter.1 haccepted).1, rfl, htarget, hconv⟩)
    · exact hsource.imp
        (fun hsource => mem_resolvedEntries.2 ⟨entry, hsource, rfl, htarget, hconv⟩)
        (fun hsource => mem_resolvedEntries.2 ⟨entry, hsource, rfl, htarget, hconv⟩)
  · exact mem_append_right _ (h.accepted hroot hdeny).1

/-- **A denied root that overlaps an accepted one stays**, up to the comparison of paths. -/
theorem IsIntersection.exists_denied {denied : PathUri}
    (hdenied : (denied, .deny) ∈ requested.roots crate context ++ granted.roots crate context)
    (hroot : root ∈ (ofEntries entries).resolvedEntries crate context) (hallows : root.2 ≠ .deny)
    (hoverlap : pathsOverlap denied root.1 = true) :
    ∃ denied', (denied', .deny) ∈ (ofEntries entries).resolvedEntries crate context ∧
      (denied == denied') = true := by
  obtain ⟨root, access⟩ := root
  obtain ⟨entry, hentry, rfl, htarget, -⟩ := mem_resolvedEntries.1 hroot
  rw [h.oneTarget hentry, mem_toList] at htarget
  -- the materialised `deny` entry behind the root
  have hbehind : ∀ {source materialized : List FileSystemSandboxEntry},
      Materializes crate context source materialized →
      (denied, .deny) ∈ (ofEntries source).resolvedEntries crate context →
      ∃ denyEntry ∈ materialized, denyEntry.access = .deny ∧
        resolvePermissionPath crate context denyEntry.path = some denied ∧
        denied.inferPathConvention = context.cwd.inferPathConvention := by
    intro source materialized hmaterializes hmem
    rw [← mem_resolvedEntries_materialized hmaterializes] at hmem
    obtain ⟨denyEntry, hmem, hdeny, hpath, hconv⟩ := mem_resolvedEntries.1 hmem
    rw [hmaterializes.oneTarget denyEntry hmem, mem_toList] at hpath
    exact ⟨denyEntry, hmem, hdeny, hpath, hconv⟩
  obtain ⟨denyEntry, hsource, hdeny, hpath, hconv⟩ : ∃ denyEntry : FileSystemSandboxEntry,
      (denyEntry ∈ requestedEntries ∨ denyEntry ∈ grantedEntries) ∧ denyEntry.access = .deny ∧
      resolvePermissionPath crate context denyEntry.path = some denied ∧
      denied.inferPathConvention = context.cwd.inferPathConvention := by
    rcases mem_append.1 hdenied with hmem | hmem
    · obtain ⟨denyEntry, hsource, hrest⟩ := hbehind (materializes_entries h.request) hmem
      exact ⟨denyEntry, Or.inl hsource, hrest⟩
    · obtain ⟨denyEntry, hsource, hrest⟩ := hbehind (materializes_entries h.grant) hmem
      exact ⟨denyEntry, Or.inr hsource, hrest⟩
  obtain ⟨entry', hentry', hbeq⟩ :=
    h.denies denyEntry hsource hdeny denied hpath entry hentry hallows root htarget hoverlap
  obtain ⟨hpathBeq, haccess, -⟩ := beq_entry_iff.1 hbeq
  obtain ⟨denied', hpath', hdeniedBeq⟩ := resolvePermissionPath_of_beq hpathBeq hpath
  refine ⟨denied', mem_resolvedEntries.2 ⟨entry', hentry', haccess.symm.trans hdeny, ?_, ?_⟩,
    hdeniedBeq⟩
  · rw [h.oneTarget hentry', mem_toList]
    exact hpath'
  · rcases PathUri.eq_or_lexical_of_beq hdeniedBeq with rfl | ⟨hsame, -, -⟩
    · exact hconv
    · exact hsame.symm.trans hconv

end

/-! ## The root that reaches a path -/

/-- The root decides the path in the intersection, and is not a denied one. -/
structure Reaches (globs : GlobServices) (crate : UrlCrate)
    (requested granted : AdditionalPermissionProfile) (context : FileSystemSandboxPolicyContext)
    (path : PathUri) (root : PathUri × FileSystemAccessMode) : Prop where
  decides : Decides ((ofEntries (keptEntries globs crate requested granted
    context)).resolvedEntries crate context) (Covers path) rank root
  allows : root.2 ≠ .deny
  checkable : ∃ convention,
    Checkable crate (ofEntries (keptEntries globs crate requested granted context)) path context
      convention

variable {path : PathUri} {root : PathUri × FileSystemAccessMode}

/-- The intersection gives a path what the root that reaches it gives. -/
theorem access_of_reaches (h : Reaches globs crate requested granted context path root) :
    (intersectPermissionProfilesWithContext globs crate requested granted context).access crate path
      context = root.2 := by
  obtain ⟨_, hcheckable⟩ := h.checkable
  rw [AdditionalPermissionProfile.access, entries_intersect]
  exact resolveAccess_of_decides rfl hcheckable h.decides

/-- A path that the intersection does not deny is reached by a root. -/
theorem exists_reaches (h : (intersectPermissionProfilesWithContext globs crate requested granted
    context).access crate path context ≠ .deny) :
    ∃ root, Reaches globs crate requested granted context path root := by
  rw [AdditionalPermissionProfile.access, entries_intersect] at h
  obtain ⟨convention, root, hcheckable, hdecides, haccess⟩ := exists_decides_of_ne_deny rfl h
  exact ⟨root, hdecides, haccess ▸ h, convention, hcheckable⟩

theorem Reaches.isIntersection (h : Reaches globs crate requested granted context path root) :
    ∃ requestedEntries grantedEntries,
      IsIntersection globs crate context requested granted requestedEntries grantedEntries
        (keptEntries globs crate requested granted context) := by
  obtain ⟨entry, hentry, -⟩ := mem_resolvedEntries.1 h.decides.mem
  exact isIntersection_keptEntries hentry

/-- A root that reaches a path is a granted one, and the request gives it as much. -/
theorem Reaches.accepted (h : Reaches globs crate requested granted context path root) :
    root ∈ granted.roots crate context ∧ requested.access crate root.1 context ≠ .deny ∧
      root.2.capability ≤ (requested.access crate root.1 context).capability := by
  obtain ⟨_, _, hentries⟩ := h.isIntersection
  obtain ⟨hmem, hcapability⟩ := hentries.accepted h.decides.mem h.allows
  refine ⟨hmem, fun hdeny => h.allows ?_, hcapability⟩
  rw [hdeny] at hcapability
  exact eq_deny_of_capability_le hcapability

/-! ## What a profile supports -/

/-- The roots give the path at least the access: one of them is at or above it, and each such root
that allows less is outranked by one that allows as much. -/
structure Supports (roots : List (PathUri × FileSystemAccessMode)) (path : PathUri)
    (access : FileSystemAccessMode) : Prop where
  covered : ∃ root ∈ roots, Covers path root
  outranked : ∀ root ∈ roots, Covers path root → root.2.capability < access.capability →
    ∃ other ∈ roots, Covers path other ∧ rank root < rank other ∧
      access.capability ≤ other.2.capability

theorem not_hasAmbiguousRoot_of_ne_deny {profile : AdditionalPermissionProfile}
    (h : profile.access crate path context ≠ .deny) :
    ¬ HasAmbiguousRoot (profile.roots crate context) := by
  obtain ⟨_, hcheckable⟩ := exists_checkable_of_ne_deny rfl h
  exact not_hasAmbiguousRoot_iff.2 hcheckable.roots

/-- **What a profile gives a path that is reached**, as a property of its roots. -/
theorem Reaches.capability_le_iff (h : Reaches globs crate requested granted context path root)
    (profile : AdditionalPermissionProfile) :
    root.2.capability ≤ (profile.access crate path context).capability ↔
      Supports (profile.roots crate context) path root.2 ∧
        ¬ HasAmbiguousRoot (profile.roots crate context) := by
  have hdeny : ¬ root.2.capability ≤ deny.capability :=
    fun hle => h.allows (eq_deny_of_capability_le hle)
  obtain ⟨convention, hkept⟩ := h.checkable
  have hiff : ¬ HasAmbiguousRoot (profile.roots crate context) →
      (root.2.capability ≤ (profile.access crate path context).capability ↔
        Supports (profile.roots crate context) path root.2) := by
    intro hambiguous
    have hcheckable : Checkable crate (ofEntries profile.permissions.entries) path context
        convention :=
      ⟨hkept.cwdConvention, hkept.pathConvention, hkept.pathLexical, hkept.cwdLexical,
        not_hasAmbiguousRoot_iff.1 hambiguous⟩
    refine (resolveAccess_iff rfl hcheckable
      fun access => root.2.capability ≤ access.capability).trans ⟨?_, ?_⟩
    · rintro ⟨hcovered, houtranked⟩
      exact ⟨hcovered.resolve_left hdeny,
        fun other hother hcovers hlt => houtranked other hother hcovers (not_le.2 hlt)⟩
    · rintro ⟨hcovered, houtranked⟩
      exact ⟨Or.inr hcovered,
        fun other hother hcovers hnot => houtranked other hother hcovers (not_le.1 hnot)⟩
  refine ⟨fun hle => ?_, fun hboth => (hiff hboth.2).2 hboth.1⟩
  have hne : profile.access crate path context ≠ .deny := by
    intro haccess
    rw [haccess] at hle
    exact hdeny hle
  have hambiguous := not_hasAmbiguousRoot_of_ne_deny hne
  exact ⟨(hiff hambiguous).1 hle, hambiguous⟩

/-- A `read` root lies deeper than the `write` root, at or above the path, and no `write` root as
deep does. -/
def Narrows (roots : List (PathUri × FileSystemAccessMode)) (path : PathUri)
    (root : PathUri × FileSystemAccessMode) : Prop :=
  root.2 = .write ∧ ∃ inner ∈ roots, inner.2 = .read ∧ Covers path inner ∧
    root.1.url.names.length < inner.1.url.names.length ∧
    ∀ other ∈ roots, other.2 = .write → Covers path other →
      other.1.url.names.length < inner.1.url.names.length

theorem rank_lt_iff {a b : PathUri × FileSystemAccessMode} :
    rank a < rank b ↔ a.1.url.names.length < b.1.url.names.length ∨
      a.1.url.names.length = b.1.url.names.length ∧ a.2.precedence < b.2.precedence := by
  rw [rank, rank, Prod.Lex.toLex_lt_toLex]

/-- **Only a deeper `read` root takes away support**, if a root allows as much and outranks what is
not deeper, and no `deny` root is deeper. -/
theorem supports_iff_not_narrows {roots : List (PathUri × FileSystemAccessMode)}
    {base : PathUri × FileSystemAccessMode} (hbase : base ∈ roots) (hcovers : Covers path base)
    (hallows : root.2.capability ≤ base.2.capability)
    (hrank : ∀ inner ∈ roots, Covers path inner → inner.2.capability < root.2.capability →
      inner.1.url.names.length ≤ root.1.url.names.length → rank inner < rank base)
    (hdeny : ∀ inner ∈ roots, Covers path inner → inner.2 = .deny →
      inner.1.url.names.length < root.1.url.names.length) :
    Supports roots path root.2 ↔ ¬ Narrows roots path root := by
  constructor
  · rintro hsupports ⟨hwrite, inner, hinner, hread, hinnerCovers, -, hdeepest⟩
    rw [hwrite] at hsupports
    obtain ⟨other, hother, hotherCovers, hlt, hle⟩ :=
      hsupports.outranked inner hinner hinnerCovers (by rw [hread]; decide)
    have hotherWrite : other.2 = .write := by
      cases haccess : other.2 with
      | write => rfl
      | read =>
        rw [haccess] at hle
        exact absurd hle (by decide)
      | deny =>
        rw [haccess] at hle
        exact absurd hle (by decide)
    have hshort := hdeepest other hother hotherWrite hotherCovers
    rcases rank_lt_iff.1 hlt with hlonger | ⟨hsame, -⟩
    · omega
    · omega
  · intro hnot
    refine ⟨⟨base, hbase, hcovers⟩, fun inner hinner hinnerCovers hless => ?_⟩
    by_cases hshort : inner.1.url.names.length ≤ root.1.url.names.length
    · exact ⟨base, hbase, hcovers, hrank inner hinner hinnerCovers hless hshort, hallows⟩
    -- a deeper root that allows less is a `read` root below a `write` root
    have hne : inner.2 ≠ .deny := fun hinnerDeny =>
      hshort (hdeny inner hinner hinnerCovers hinnerDeny).le
    obtain ⟨hread, hwrite⟩ : inner.2 = .read ∧ root.2 = .write := by
      revert hless hne
      cases inner.2 <;> cases root.2 <;> decide
    by_contra hnone
    refine hnot ⟨hwrite, inner, hinner, hread, hinnerCovers, not_le.1 hshort,
      fun other hother hotherWrite hotherCovers => ?_⟩
    by_contra hdeeper
    refine hnone ⟨other, hother, hotherCovers, rank_lt_iff.2 ?_, ?_⟩
    · rw [hread, hotherWrite]
      rcases (not_lt.1 hdeeper).lt_or_eq with hlt | heq
      · exact Or.inl hlt
      · exact Or.inr ⟨heq, by decide⟩
    · rw [hwrite, hotherWrite]

/-! ## Roots that are spelled alike -/

/-- The path and the roots at or above it are no other spellings of a root. -/
structure SpelledAlike (roots : List (PathUri × FileSystemAccessMode)) (path : PathUri) : Prop where
  of_path : ∀ root ∈ roots, ¬ path.Respells root.1
  of_root : ∀ root ∈ roots, Covers path root → ∀ other ∈ roots, ¬ root.1.Respells other.1

/-- Names that are UTF-8 have one spelling, and so have all names of POSIX paths. -/
theorem spelledAlike_of_spelled {roots : List (PathUri × FileSystemAccessMode)}
    (hpath : path.Spelled) (hroots : ∀ root ∈ roots, root.1.Spelled) : SpelledAlike roots path :=
  ⟨fun root hroot => PathUri.not_respells_of_spelled hpath (hroots root hroot),
    fun root hroot _ other hother =>
      PathUri.not_respells_of_spelled (hroots root hroot) (hroots other hother)⟩

section
variable
  (hspelled : SpelledAlike (requested.roots crate context ++ granted.roots crate context) path)
  (h : Reaches globs crate requested granted context path root)
include hspelled h

theorem Reaches.below {other : PathUri × FileSystemAccessMode}
    (hother : other ∈ requested.roots crate context ++ granted.roots crate context)
    (hcovers : Covers path other) : PathUri.Below path other.1 := by
  obtain ⟨_, hcheckable⟩ := h.checkable
  exact PathUri.below_of_startsWith hcovers.2 hcheckable.pathLexical (hspelled.of_path other hother)

/-- **The root that reaches a path is deeper than every denied root.** -/
theorem Reaches.length_lt_of_denied {denied : PathUri × FileSystemAccessMode}
    (hdenied : denied ∈ requested.roots crate context ++ granted.roots crate context)
    (hcovers : Covers path denied) (hdeny : denied.2 = .deny) :
    denied.1.url.names.length < root.1.url.names.length := by
  obtain ⟨_, _, hentries⟩ := h.isIntersection
  have hbelow := h.below hspelled hdenied hcovers
  have hbelowRoot := h.below hspelled (hentries.mem_roots h.decides.mem) h.decides.holds
  have hoverlap : pathsOverlap denied.1 root.1 = true := by
    rw [pathsOverlap, hbelow.overlaps hbelowRoot]
    rfl
  obtain ⟨denied, access⟩ := denied
  cases hdeny
  obtain ⟨denied', hmem, hbeq⟩ := hentries.exists_denied hdenied h.decides.mem h.allows hoverlap
  -- what stays in its place lies at its place
  have hplace : denied.place = denied'.place := by
    by_contra hne
    exact hspelled.of_root _ hdenied hcovers _ (hentries.mem_roots hmem) ⟨hbeq, hne⟩
  have hbelow' := hbelow.trans (PathUri.below_of_beq hbeq hcovers.1 hplace)
  have hle := h.decides.le _ hmem ⟨hbelow'.baseLexical, hbelow'.startsWith⟩
  have hlength := congrArg List.length hplace
  rw [PathUri.length_place, PathUri.length_place] at hlength
  by_contra hnot
  refine absurd hle (not_le.2 (rank_lt_iff.2 ?_))
  rcases (not_lt.1 hnot).lt_or_eq with hlt | heq
  · exact Or.inl (hlt.trans_eq (Nat.succ.inj hlength))
  · refine Or.inr ⟨heq.trans (Nat.succ.inj hlength), ?_⟩
    show root.2.precedence < deny.precedence
    have hallows := h.allows
    revert hallows
    cases root.2 <;> decide

/-- **What is lost of the grant** is at most a deeper `read` root. -/
theorem Reaches.supports_granted_iff :
    Supports (granted.roots crate context) path root.2 ↔
      ¬ Narrows (granted.roots crate context) path root := by
  obtain ⟨hmem, -, -⟩ := h.accepted
  have hdeny : ∀ inner ∈ granted.roots crate context, Covers path inner → inner.2 = .deny →
      inner.1.url.names.length < root.1.url.names.length :=
    fun inner hinner => h.length_lt_of_denied hspelled (mem_append_right _ hinner)
  refine supports_iff_not_narrows hmem h.decides.holds le_rfl (fun inner hinner hcovers hless hle => ?_)
    hdeny
  rcases hle.lt_or_eq with hlt | heq
  · exact rank_lt_iff.2 (Or.inl hlt)
  · refine rank_lt_iff.2 (Or.inr ⟨heq, ?_⟩)
    have hne : inner.2 ≠ .deny := fun hinnerDeny =>
      absurd (hdeny inner hinner hcovers hinnerDeny) heq.not_lt
    revert hless hne
    cases inner.2 <;> cases root.2 <;> decide

/-- **What is lost of the request** is at most a deeper `read` root: a root that is not deeper bears
on the accepted root as well. -/
theorem Reaches.supports_requested_iff :
    Supports (requested.roots crate context) path root.2 ↔
      ¬ Narrows (requested.roots crate context) path root := by
  obtain ⟨hmem, hne, hcapability⟩ := h.accepted
  have hmem := mem_append_right (requested.roots crate context) hmem
  have hbelow := h.below hspelled hmem h.decides.holds
  obtain ⟨_, base, -, hbase, haccess⟩ := exists_decides_of_ne_deny rfl hne
  have hallows : root.2.capability ≤ base.2.capability := by
    rw [← haccess]
    exact hcapability
  have hbaseMem := mem_append_left (granted.roots crate context) hbase.mem
  have hbaseBelow : PathUri.Below path base.1 := hbelow.trans
    (PathUri.below_of_startsWith hbase.holds.2 hbelow.baseLexical
      (hspelled.of_root root hmem h.decides.holds base hbaseMem))
  refine supports_iff_not_narrows hbase.mem ⟨hbase.holds.1, hbaseBelow.startsWith⟩ hallows
    (fun inner hinner hcovers hless hle => ?_)
    fun inner hinner => h.length_lt_of_denied hspelled (mem_append_left _ hinner)
  have hinnerBelow := hbelow.of_length_le (h.below hspelled (mem_append_left _ hinner) hcovers) hle
  refine lt_of_le_of_ne (hbase.le inner hinner ⟨hcovers.1, hinnerBelow.startsWith⟩) fun hrank => ?_
  rw [access_eq_of_rank_eq hrank] at hless
  omega

end

/-! ## No more than both sides give -/

/-- The intersection gives the path no more than the request and the grant give it. -/
def WithinBoth (globs : GlobServices) (crate : UrlCrate)
    (requested granted : AdditionalPermissionProfile) (context : FileSystemSandboxPolicyContext)
    (path : PathUri) : Prop :=
  let access := (intersectPermissionProfilesWithContext globs crate requested granted context).access
    crate path context
  access.capability ≤ (requested.access crate path context).capability ∧
    access.capability ≤ (granted.access crate path context).capability

/-- No `read` root of the two profiles lies below a `write` root of the grant. -/
def Unnarrowed (crate : UrlCrate) (requested granted : AdditionalPermissionProfile)
    (context : FileSystemSandboxPolicyContext) : Prop :=
  ∀ outer ∈ granted.roots crate context, outer.2 = .write →
    ∀ inner ∈ requested.roots crate context ++ granted.roots crate context, inner.2 = .read →
      outer.1.url.names.length < inner.1.url.names.length → inner.1.startsWith outer.1 = false

/-- The comparison of accesses, read off the roots of the entries. -/
theorem withinBoth_iff : WithinBoth globs crate requested granted context path ↔
    ∀ root, Reaches globs crate requested granted context path root →
      Supports (requested.roots crate context) path root.2 ∧
      Supports (granted.roots crate context) path root.2 ∧
      ¬ HasAmbiguousRoot (granted.roots crate context) := by
  refine ⟨fun hle root hreaches => ?_, fun hall => ?_⟩
  · rw [WithinBoth, access_of_reaches hreaches] at hle
    exact ⟨((hreaches.capability_le_iff requested).1 hle.1).1,
      (hreaches.capability_le_iff granted).1 hle.2⟩
  · rw [WithinBoth]
    by_cases hdenied : (intersectPermissionProfilesWithContext globs crate requested granted
        context).access crate path context = .deny
    · rw [hdenied]
      exact ⟨Nat.zero_le _, Nat.zero_le _⟩
    · obtain ⟨root, hreaches⟩ := exists_reaches hdenied
      obtain ⟨hrequested, hgranted⟩ := hall root hreaches
      rw [access_of_reaches hreaches, hreaches.capability_le_iff requested,
        hreaches.capability_le_iff granted]
      refine ⟨⟨hrequested, ?_⟩, hgranted⟩
      -- the request was asked about the root, so none of its roots is ambiguous
      exact not_hasAmbiguousRoot_of_ne_deny hreaches.accepted.2.1

/-- A root that narrows the one that reaches the path lies below it. -/
theorem Reaches.not_narrows (h : Reaches globs crate requested granted context path root)
    (hspelled : SpelledAlike (requested.roots crate context ++ granted.roots crate context) path)
    (hnone : Unnarrowed crate requested granted context)
    {roots : List (PathUri × FileSystemAccessMode)}
    (hroots : ∀ inner ∈ roots, inner ∈ requested.roots crate context ++ granted.roots crate context) :
    ¬ Narrows roots path root := by
  rintro ⟨hwrite, inner, hinner, hread, hcovers, hlt, -⟩
  obtain ⟨hmem, -, -⟩ := h.accepted
  have hbelow := (h.below hspelled (hroots inner hinner) hcovers).of_length_le
    (h.below hspelled (mem_append_right _ hmem) h.decides.holds) hlt.le
  have hstarts := hnone root hmem hwrite inner (hroots inner hinner) hread hlt
  rw [hbelow.startsWith] at hstarts
  cases hstarts

/-- **The access of an intersection.**  The intersection gives a path no more than the request and
the grant give it exactly if the roots of both support what the root that reaches the path
gives, and no granted root is ambiguous.  Where no name is spelled in two ways the support that
can be missing is known: only a `read` root of one side that lies below a `write` root of the
intersection is lost.  So nothing is lost for any path if neither profile has such a root. -/
theorem access_intersect_le_iff (globs : GlobServices) (crate : UrlCrate)
    (requested granted : AdditionalPermissionProfile) (context : FileSystemSandboxPolicyContext)
    (path : PathUri) :
    (WithinBoth globs crate requested granted context path ↔
      ∀ root, Reaches globs crate requested granted context path root →
        Supports (requested.roots crate context) path root.2 ∧
        Supports (granted.roots crate context) path root.2 ∧
        ¬ HasAmbiguousRoot (granted.roots crate context)) ∧
    (SpelledAlike (requested.roots crate context ++ granted.roots crate context) path →
      (WithinBoth globs crate requested granted context path ↔
        ∀ root, Reaches globs crate requested granted context path root →
          ¬ Narrows (requested.roots crate context) path root ∧
          ¬ Narrows (granted.roots crate context) path root ∧
          ¬ HasAmbiguousRoot (granted.roots crate context)) ∧
      (Unnarrowed crate requested granted context →
        ¬ HasAmbiguousRoot (granted.roots crate context) →
        WithinBoth globs crate requested granted context path)) := by
  refine ⟨withinBoth_iff, fun hspelled => ?_⟩
  have hiff : WithinBoth globs crate requested granted context path ↔
      ∀ root, Reaches globs crate requested granted context path root →
        ¬ Narrows (requested.roots crate context) path root ∧
        ¬ Narrows (granted.roots crate context) path root ∧
        ¬ HasAmbiguousRoot (granted.roots crate context) := by
    refine withinBoth_iff.trans (forall_congr' fun root => imp_congr_right fun hreaches => ?_)
    rw [hreaches.supports_requested_iff hspelled, hreaches.supports_granted_iff hspelled]
  refine ⟨hiff, fun hnone hunambiguous => hiff.2 fun root hreaches => ⟨?_, ?_, hunambiguous⟩⟩
  · exact hreaches.not_narrows hspelled hnone fun inner => mem_append_left _
  · exact hreaches.not_narrows hspelled hnone fun inner => mem_append_right _

/-- Services for profiles without globs. -/
def GlobServices.noGlobs : GlobServices where
  inferredNativePathString := fun _ => []
  validateGlobDirectory := fun _ _ => true
  buildGlobMatcher := fun _ _ => none

/-- A profile of path entries. -/
def pathProfile (entries : List (PathUri × FileSystemAccessMode)) : AdditionalPermissionProfile where
  network := none
  fileSystem := some
    { entries := entries.map fun entry => { path := .path entry.1, access := entry.2 } }

/-- **A narrower request is lost.**  With `/a` requested for writing but `/a/.git/b` below it for
reading only, and `/a` granted for writing, the intersection lets `/a/.git/b` be written. -/
theorem requested_read_is_lost :
    (pathProfile [(slashA, .write), (insideGit, .read)]).access .percentEncoding insideGit
      (contextOf slashA) = .read ∧
    (pathProfile [(slashA, .write)]).access .percentEncoding insideGit (contextOf slashA) = .write ∧
    (intersectPermissionProfilesWithContext .noGlobs .percentEncoding
      (pathProfile [(slashA, .write), (insideGit, .read)]) (pathProfile [(slashA, .write)])
      (contextOf slashA)).access .percentEncoding insideGit (contextOf slashA) = .write := by
  decide

/-- A path that hides a separator in a name. -/
def hiddenSeparator : PathUri where
  url :=
    { host := none
      segments := [ascii "x%2Fy"]
      segments_ne_nil := cons_ne_nil _ _
      noSlash := by decide }
  valid := by decide

-- a grant with an ambiguous root denies everything, and the intersection leaves the root out
example :
    (pathProfile [(slashA, .write), (hiddenSeparator, .read)]).access .percentEncoding slashA
      (contextOf slashA) = .deny ∧
    (intersectPermissionProfilesWithContext .noGlobs .percentEncoding (pathProfile [(slashA, .write)])
      (pathProfile [(slashA, .write), (hiddenSeparator, .read)]) (contextOf slashA)).access
        .percentEncoding slashA (contextOf slashA) = .write := by
  decide

end Permissions
