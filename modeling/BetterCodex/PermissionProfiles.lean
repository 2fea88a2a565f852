/-
# Permission profiles

A command may ask for permissions beyond its sandbox.  What it is given is the intersection of
what it requested with what was granted: the granted entries that the request covers, and the
`deny` entries of both sides that bear on them.

Compiling globs and writing paths as native text are parameters (`GlobServices`).
-/
import BetterCodex.FileSystemPolicy

namespace Permissions

open RustStr Paths Utf8

/-! ## Profiles -/

structure NetworkPermissions where
  enabled : Option Bool
deriving DecidableEq

structure FileSystemPermissions where
  entries : List FileSystemSandboxEntry := []
  globScanMaxDepth : Option ℕ+ := none

structure AdditionalPermissionProfile where
  network : Option NetworkPermissions
  fileSystem : Option FileSystemPermissions

/-- What the code takes from the path and glob libraries. -/
structure GlobServices where
  /-- `PathUri::inferred_native_path_string`. -/
  inferredNativePathString : PathUri → Text
  /-- `PathUri::validate_glob_directory`. -/
  validateGlobDirectory : PathUri → PathConvention → Bool
  /-- `build_glob_matcher`. -/
  buildGlobMatcher : Text → PathConvention → Option (Bytes → Bool)

/-! ## Materialised entries -/

def resolvePermissionPath (crate : UrlCrate) (context : FileSystemSandboxPolicyContext) :
    FileSystemPath → Option PathUri
  | .path path => some path
  | .globPattern _ => none
  | .special .root => fileSystemRoot context
  | .special (.projectRoots subpath) =>
    context.workspaceRoots.head?.bind fun root =>
      match subpath with
      | some subpath => root.join crate subpath
      | none => some root
  | .special .tmpdir => context.temporaryDirectories.bind List.head?
  | .special .slashTmp =>
    if context.cwd.inferPathConvention = some .posix then context.cwd.join crate "/tmp".toList
    else none
  | .special .minimal => none
  | .special (.unknown _ _) => none

/-- A separator of the executor's paths. -/
def isSeparator (isWindows : Bool) (c : Char) : Bool := c == '/' || isWindows && c == '\\'

/-- What a pattern that starts with the home directory goes on with. -/
def homeRelative (isWindows : Bool) (pattern : Text) : Option Text :=
  (stripPrefix "~/".toList pattern).or
    (if isWindows then stripPrefix "~\\".toList pattern else none)

variable (globs : GlobServices)

/-- The absolute pattern that a glob pattern becomes. -/
def materializeGlobPattern (crate : UrlCrate)
    (context : FileSystemSandboxPolicyContext) (pattern : Text) : Option Text := do
  let isWindows : Bool := context.cwd.inferPathConvention = some .windows
  let suffix := if pattern = "~".toList then some [] else homeRelative isWindows pattern
  let (root, rest) ← match suffix with
    | some suffix =>
      context.userHomeDir.map fun home => (home, suffix.dropWhile (isSeparator isWindows))
    | none => some (context.cwd, pattern)
  (root.join crate rest).map globs.inferredNativePathString

def materializeCwdDependentEntry (crate : UrlCrate)
    (context : FileSystemSandboxPolicyContext) (entry : FileSystemSandboxEntry) :
    Option FileSystemSandboxEntry :=
  match entry.path with
  | .globPattern pattern =>
    (materializeGlobPattern globs crate context pattern).map fun pattern =>
      { entry with path := .globPattern pattern }
  | _ => some entry

def materializedPathEntry (entry : FileSystemSandboxEntry) (path : PathUri) :
    FileSystemSandboxEntry :=
  { entry with path := .path path }

/-- What one entry becomes; `none` where a `deny` entry cannot be resolved. -/
def materializeContextDependentEntry (crate : UrlCrate)
    (context : FileSystemSandboxPolicyContext) (entry : FileSystemSandboxEntry) :
    Option (List FileSystemSandboxEntry) :=
  match entry.path with
  | .special (.projectRoots _) =>
    let resolved := context.workspaceRoots.map fun root =>
      resolvePermissionPath crate { context with workspaceRoots := [root] } entry.path
    if entry.access = .deny && (resolved.any Option.isNone || resolved.isEmpty)
    then none
    else some (resolved.reduceOption.map (materializedPathEntry entry))
  | .special .tmpdir =>
    match context.temporaryDirectories with
    | none => if entry.access = .deny then none else some [entry]
    | some temporaryDirectories => some (temporaryDirectories.map (materializedPathEntry entry))
  | .special .root => (resolvePermissionPath crate context entry.path).map fun _ => [entry]
  | _ =>
    match materializeCwdDependentEntry globs crate context entry with
    | none => if entry.access = .deny then none else some []
    | some entry => some [entry]

def materializeContextDependentEntries (globs : GlobServices) (crate : UrlCrate)
    (context : FileSystemSandboxPolicyContext) :
    List FileSystemSandboxEntry → Option (List FileSystemSandboxEntry)
  | [] => some []
  | entry :: entries => do
    let materialized ← materializeContextDependentEntry globs crate context entry
    let rest ← materializeContextDependentEntries globs crate context entries
    some (materialized ++ rest)

/-! ## Read denials -/

structure PreparedReadDenyMatcher where
  deniedRoots : List PathUri
  denyReadMatchers : List (Bytes → Bool)
  invalidPattern : Bool

namespace FileSystemSandboxPolicy

/-- One pattern of `FileSystemSandboxPolicy::deny_read_globs`; `none` is an error. -/
def denyReadGlob (globs : GlobServices) (crate : UrlCrate)
    (context : FileSystemSandboxPolicyContext) (pattern : Text) : Option Text := do
  let isWindows : Bool := context.cwd.inferPathConvention = some .windows
  let (root, rest) ← match homeRelative isWindows pattern with
    | some suffix =>
      context.userHomeDir.map fun home => (home, suffix.dropWhile (isSeparator isWindows))
    | none => some (context.cwd, pattern)
  let convention : PathConvention := if isWindows then .windows else .posix
  if (PathUri.fromAbsoluteNativePath crate rest convention).isNone &&
      !globs.validateGlobDirectory root convention
  then none
  else (root.join crate rest).map globs.inferredNativePathString

/-- The patterns of the `deny` entries. -/
def denyPatterns (policy : FileSystemSandboxPolicy) : List Text :=
  policy.entries.filterMap fun entry =>
    match entry.access, entry.path with
    | .deny, .globPattern pattern => some pattern
    | _, _ => none

/-- `FileSystemSandboxPolicy::prepare_deny_read_matcher` with
`InvalidDenyReadGlobBehavior::FailClosed`. -/
def prepareDenyReadMatcher (globs : GlobServices) (crate : UrlCrate)
    (policy : FileSystemSandboxPolicy) (context : FileSystemSandboxPolicyContext) :
    PreparedReadDenyMatcher :=
  let deniedRoots :=
    (((policy.resolvedEntries crate context).filter fun entry => entry.2 = .deny).map
      Prod.fst).filter fun root =>
        !(fileSystemRoot context).any fun fileSystemRoot =>
          root.startsWith fileSystemRoot && fileSystemRoot.startsWith root
  match context.cwd.inferPathConvention,
    policy.denyPatterns.mapM (denyReadGlob globs crate context) with
  | some convention, some patterns =>
    let matchers := patterns.map fun pattern => globs.buildGlobMatcher pattern convention
    { deniedRoots := deniedRoots
      denyReadMatchers := matchers.reduceOption
      invalidPattern := matchers.any Option.isNone }
  | _, _ => { deniedRoots := deniedRoots, denyReadMatchers := [], invalidPattern := true }

end FileSystemSandboxPolicy

/-- `ReadDenyMatcher::from_context`. -/
def readDenyMatcherFromContext (crate : UrlCrate)
    (policy : FileSystemSandboxPolicy) (context : FileSystemSandboxPolicyContext) :
    Option PreparedReadDenyMatcher :=
  if policy.entries.any fun entry => entry.access = .deny then
    some (policy.prepareDenyReadMatcher globs crate context)
  else none

/-- `FileSystemSandboxPolicy::matches_prepared_read_deny`. -/
def PreparedReadDenyMatcher.isReadDeniedUri (prepared : PreparedReadDenyMatcher)
    (path : PathUri) (context : FileSystemSandboxPolicyContext) : Bool :=
  match context.cwd.inferPathConvention with
  | none => true
  | some convention =>
    if path.inferPathConvention ≠ some convention ∨ path.lexicalDepth = none ∨
        context.cwd.lexicalDepth = none
    then true
    else if prepared.invalidPattern then true
    else
      let candidate := match convention with
        | .posix => path.decodedPathBytes
        | .windows =>
          asBytes ((globs.inferredNativePathString path).map fun c => if c = '\\' then '/' else c)
      prepared.deniedRoots.any path.startsWith ||
        prepared.denyReadMatchers.any fun isMatch => isMatch candidate

/-! ## What a request covers -/

def accessCovers (requested : FileSystemAccessMode) : FileSystemAccessMode → Bool
  | .read => requested.canRead
  | .write => requested.canWrite
  | .deny => false

def isRootEntry (entry : FileSystemSandboxEntry) : Bool :=
  match entry.path with
  | .special .root => true
  | _ => false

def grantedFileSystemEntryWithinRequest (crate : UrlCrate)
    (requested : FileSystemPermissions) (requestedPolicy : FileSystemSandboxPolicy)
    (matcher : Option PreparedReadDenyMatcher) (context : FileSystemSandboxPolicyContext)
    (grantedEntry : FileSystemSandboxEntry) : Bool :=
  if !grantedEntry.access.canRead ||
      (grantedEntry.path == .special .slashTmp &&
        context.cwd.inferPathConvention ≠ some PathConvention.posix)
  then false
  else if context.cwd.inferPathConvention = some .windows && isRootEntry grantedEntry &&
      !requested.entries.any fun requestedEntry =>
        isRootEntry requestedEntry && accessCovers requestedEntry.access grantedEntry.access
  then false
  else
    match resolvePermissionPath crate context grantedEntry.path with
    | some path =>
      if path.inferPathConvention ≠ context.cwd.inferPathConvention ||
          matcher.any fun matcher => matcher.isReadDeniedUri globs path context
      then false
      else accessCovers (requestedPolicy.resolveAccess crate path context) grantedEntry.access
    | none =>
      requested.entries.any fun requestedEntry =>
        accessCovers requestedEntry.access grantedEntry.access &&
          requestedEntry.path == grantedEntry.path

/-! ## Denials that bear on a grant -/

/-- `*`, `?`, `[` and `]`. -/
def isGlobChar (c : Char) : Bool := c ∈ ['*', '?', '[', ']']

def globStaticPrefixPath (crate : UrlCrate) (pattern : Text)
    (context : FileSystemSandboxPolicyContext) : Option PathUri :=
  let isWindows : Bool := context.cwd.inferPathConvention = some .windows
  let stem := pattern.takeWhile fun c => !isGlobChar c
  if stem = pattern then context.cwd.join crate pattern
  else if stem = [] then none
  else
    (context.cwd.join crate stem).bind fun path =>
      if stem.getLast?.any (isSeparator isWindows) then some path else path.parent

def pathsOverlap (left right : PathUri) : Bool := (left.overlaps right).getD true

def denyEntryConstrainsAcceptedGrant (crate : UrlCrate) (context : FileSystemSandboxPolicyContext)
    (acceptedEntries : List FileSystemSandboxEntry) (denyEntry : FileSystemSandboxEntry) : Bool :=
  (acceptedEntries.filter fun entry => entry.access.canRead).any fun entry =>
    if isRootEntry entry then true
    else
      match resolvePermissionPath crate context entry.path with
      | none => true
      | some grantPath =>
        let denyPath := match denyEntry.path with
          | .globPattern pattern => globStaticPrefixPath crate pattern context
          | path => resolvePermissionPath crate context path
        denyPath.all fun denyPath => pathsOverlap denyPath grantPath

/-- An entry is added unless the list contains it. -/
def pushNew (entries : List FileSystemSandboxEntry) (entry : FileSystemSandboxEntry) :
    List FileSystemSandboxEntry :=
  if entries.contains entry then entries else entries ++ [entry]

/-- The `deny` entries that `retain_constraining_deny_entries` returns. -/
def constrainingDenyEntries (crate : UrlCrate) (context : FileSystemSandboxPolicyContext)
    (sourceEntries acceptedEntries : List FileSystemSandboxEntry) : List FileSystemSandboxEntry :=
  sourceEntries.filter fun entry =>
    entry.access = .deny && denyEntryConstrainsAcceptedGrant crate context acceptedEntries entry

/-! ## The depth of glob scans -/

inductive GlobScanDepth
  | bounded (depth : ℕ)
  | unbounded

def effectiveGlobScanDepth (entries : List FileSystemSandboxEntry) (depth : Option ℕ) :
    Option GlobScanDepth :=
  if entries.any fun entry =>
    match entry.access, entry.path with
    | .deny, .globPattern _ => true
    | _, _ => false
  then some (depth.elim .unbounded .bounded)
  else none

def mergeGlobScanMaxDepth (leftEntries : List FileSystemSandboxEntry) (leftDepth : Option ℕ)
    (rightEntries : List FileSystemSandboxEntry) (rightDepth : Option ℕ) : Option ℕ :=
  match effectiveGlobScanDepth leftEntries leftDepth,
    effectiveGlobScanDepth rightEntries rightDepth with
  | some .unbounded, _ => none
  | _, some .unbounded => none
  | some (.bounded left), some (.bounded right) => some (max left right)
  | some (.bounded depth), none => some depth
  | none, some (.bounded depth) => some depth
  | none, none => none

/-! ## The intersection -/

/-- The granted entries that the request covers. -/
def acceptedEntries (crate : UrlCrate)
    (context : FileSystemSandboxPolicyContext) (requested : FileSystemPermissions)
    (requestedEntries grantedEntries : List FileSystemSandboxEntry) : List FileSystemSandboxEntry :=
  let requestedPolicy := FileSystemSandboxPolicy.ofEntries requestedEntries
  let matcher := readDenyMatcherFromContext globs crate requestedPolicy context
  grantedEntries.filter
    (grantedFileSystemEntryWithinRequest globs crate requested requestedPolicy matcher context)

/-- The file-system part of `intersect_permission_profiles_with_context`. -/
def intersectFileSystemPermissions (crate : UrlCrate)
    (requested granted : FileSystemPermissions) (context : FileSystemSandboxPolicyContext) :
    Option FileSystemPermissions := do
  let requestedEntries ← materializeContextDependentEntries globs crate context requested.entries
  let grantedEntries ← materializeContextDependentEntries globs crate context granted.entries
  let accepted :=
    (acceptedEntries globs crate context requested requestedEntries grantedEntries).foldl pushNew []
  let requestedRetained := constrainingDenyEntries crate context requestedEntries accepted
  let grantedRetained := constrainingDenyEntries crate context grantedEntries accepted
  let depth := mergeGlobScanMaxDepth requestedRetained (requested.globScanMaxDepth.map PNat.val)
    grantedRetained (granted.globScanMaxDepth.map PNat.val)
  some
    { entries := grantedRetained.foldl pushNew (requestedRetained.foldl pushNew accepted)
      globScanMaxDepth := depth.bind fun depth => if h : 0 < depth then some ⟨depth, h⟩ else none }

def intersectPermissionProfilesWithContext (crate : UrlCrate)
    (requested granted : AdditionalPermissionProfile) (context : FileSystemSandboxPolicyContext) :
    AdditionalPermissionProfile where
  network :=
    match requested.network, granted.network with
    | some ⟨some true⟩, some ⟨some true⟩ => some ⟨some true⟩
    | _, _ => none
  fileSystem :=
    (requested.fileSystem.bind fun requestedFileSystem =>
      intersectFileSystemPermissions globs crate requestedFileSystem (granted.fileSystem.getD {})
        context).filter fun fileSystem => !fileSystem.entries.isEmpty

end Permissions
