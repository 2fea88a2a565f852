/-
# Full-disk access

The flags `hasFullDiskWriteAccessForConvention` and `hasFullDiskReadAccessForConvention` are
read off the shape of a policy's entries.  This file compares them with the access that
`resolveAccess` gives.

* On POSIX every path lies below the root of the working directory, and an entry that the flag
  takes for shadowed never decides a path (`resolveAccess_write_posix`,
  `resolveAccess_canRead_posix`).
* On Windows the root is the drive or the share of the working directory, so that no restricted
  policy reaches every path (`exists_denied_windows`).
-/
import BetterCodex.FileSystemPolicy

namespace Permissions

open RustStr Paths DeepestRule FileSystemSandboxPolicy List PathUri FileSystemAccessMode

variable {crate : UrlCrate} {policy : FileSystemSandboxPolicy} {path : PathUri}
  {context : FileSystemSandboxPolicyContext}

/-! ## What the flags say about the entries -/

theorem beq_special {p : FileSystemPath} {value : FileSystemSpecialPath} :
    (p == .special value) = true ↔ p = .special value := by
  cases p with
  | path p => exact iff_of_false (fun h => Bool.noConfusion h) (nofun)
  | globPattern pattern => exact iff_of_false (fun h => Bool.noConfusion h) (nofun)
  | special other =>
    show decide (other = value) = true ↔ _
    rw [decide_eq_true_eq, FileSystemPath.special.injEq]

theorem exists_root_entry {predicate : FileSystemAccessMode → Bool}
    (h : policy.hasRootAccess predicate = true) :
    ∃ entry ∈ policy.entries, entry.path = .special .root ∧ predicate entry.access = true := by
  simp only [hasRootAccess, Bool.and_eq_true, any_eq_true, beq_special] at h
  exact h.2

theorem canWrite_iff {access : FileSystemAccessMode} : access.canWrite = true ↔ access = .write := by
  rw [canWrite, decide_eq_true_eq]

variable {entry : FileSystemSandboxEntry} {convention : PathConvention}

/-- A shadowed entry is a `read` with a `write` for the same target. -/
theorem exists_override (h : policy.hasSameTargetWriteOverride entry convention = true) :
    entry.access = .read ∧ ∃ candidate ∈ policy.entries, candidate.access = .write ∧
      fileSystemPathsShareTarget convention candidate.path entry.path = true := by
  simp only [hasSameTargetWriteOverride, any_eq_true, Bool.and_eq_true, canWrite_iff,
    decide_eq_true_eq] at h
  obtain ⟨candidate, hmem, ⟨hwrite, hlt⟩, hshare⟩ := h
  refine ⟨?_, candidate, hmem, hwrite, hshare⟩
  rw [hwrite] at hlt
  cases haccess : entry.access with
  | read => rfl
  | write =>
    rw [haccess] at hlt
    exact absurd hlt (by decide)
  | deny =>
    rw [haccess] at hlt
    exact absurd hlt (by decide)

/-! ## POSIX roots -/

/-- The context is one of a POSIX executor with an unambiguous working directory. -/
structure PosixContext (context : FileSystemSandboxPolicyContext) : Prop where
  convention : context.cwd.inferPathConvention = some .posix
  lexical : context.cwd.lexicalDepth.isSome = true

variable {root : PathUri}

theorem posix_of_mem {access : FileSystemAccessMode} (hposix : PosixContext context)
    (h : (root, access) ∈ policy.resolvedEntries crate context) :
    root.inferPathConvention = some .posix := by
  obtain ⟨-, -, -, -, hconv⟩ := mem_resolvedEntries.1 h
  rw [hconv, hposix.convention]

theorem lexical_of_names_eq_nil (hunclear : root.isOpaque = false)
    (hposix : root.inferPathConvention = some .posix) (hnames : root.url.names = []) :
    root.lexicalDepth.isSome = true := by
  refine (lexical_posix_iff hposix).2 ⟨hunclear, fun name hname => ?_⟩
  rw [hnames] at hname
  exact absurd hname not_mem_nil

/-- The root of a POSIX context is `/`. -/
theorem fileSystemRoot_posix (hposix : PosixContext context) :
    ∃ root, fileSystemRoot context = some root ∧ root.lexicalDepth.isSome = true ∧
      root.inferPathConvention = some .posix ∧ root.place = [.inl none] := by
  have hunclear := not_opaque_of_lexical hposix.lexical
  obtain ⟨root, hroot, hrootOpaque, hrootPosix, hnames⟩ :=
    ancestors_getLast_posix hunclear hposix.convention
  refine ⟨root, ?_, lexical_of_names_eq_nil hrootOpaque hrootPosix hnames, hrootPosix, ?_⟩
  · obtain ⟨depth, hdepth⟩ := Option.isSome_iff_exists.1 hposix.lexical
    rw [fileSystemRoot, hdepth]
    exact hroot
  · rw [place_posix hrootOpaque hrootPosix, hnames, map_nil]

/-- On POSIX containment is the order of places. -/
theorem startsWith_posix_iff {self base : PathUri} (hself : self.inferPathConvention = some .posix)
    (hbase : base.inferPathConvention = some .posix)
    (hselfLexical : self.lexicalDepth.isSome = true)
    (hbaseLexical : base.lexicalDepth.isSome = true) :
    self.startsWith base = true ↔ base.place <+: self.place := by
  rw [startsWith_iff hself hbase hselfLexical hbaseLexical]
  refine ⟨fun h => h.elim (fun hbeq => ?_) id, Or.inr⟩
  rw [place_eq_of_beq hbeq (spelled_of_posix hself) (spelled_of_posix hbase)]

theorem checkable_posix (hposix : PosixContext context)
    (hroots : ∀ entry ∈ policy.resolvedEntries crate context, entry.1.lexicalDepth.isSome = true)
    (hpath : path.inferPathConvention = some .posix) (hlexical : path.lexicalDepth.isSome = true) :
    Checkable crate policy path context .posix :=
  ⟨hposix.convention, hpath, hlexical, hposix.lexical, fun entry hentry => .inl (hroots entry hentry)⟩

/-- With an entry for the root, every POSIX path is decided. -/
theorem exists_decides_posix (crate : UrlCrate) (hposix : PosixContext context)
    (hentry : entry ∈ policy.entries) (hroot : entry.path = .special .root)
    (hpath : path.inferPathConvention = some .posix) (hlexical : path.lexicalDepth.isSome = true) :
    ∃ decider, Decides (policy.resolvedEntries crate context) (Covers path) rank decider := by
  obtain ⟨root, hroot', hrootLexical, hrootPosix, hplace⟩ := fileSystemRoot_posix hposix
  refine exists_decides ⟨(root, entry.access), mem_resolvedEntries.2 ⟨entry, hentry, rfl, ?_, ?_⟩,
    hrootLexical, ?_⟩
  · rw [hroot, entryRoots, hroot']
    exact mem_singleton_self root
  · rw [hrootPosix, hposix.convention]
  · rw [startsWith_posix_iff hpath hrootPosix hlexical hrootLexical, hplace,
      place_posix (not_opaque_of_lexical hlexical) hpath, cons_prefix_cons]
    exact ⟨rfl, nil_prefix⟩

/-- **A `read` root does not decide a path where a `write` root has its place.** -/
theorem read_not_decides (hposix : PosixContext context)
    (hroots : ∀ entry ∈ policy.resolvedEntries crate context, entry.1.lexicalDepth.isSome = true)
    (hpath : path.inferPathConvention = some .posix) (hlexical : path.lexicalDepth.isSome = true)
    {other : PathUri}
    (hdecides : Decides (policy.resolvedEntries crate context) (Covers path) rank (root, .read))
    (hother : (other, .write) ∈ policy.resolvedEntries crate context)
    (hplace : other.place = root.place) : False := by
  have hrootLexical := hroots _ hdecides.mem
  have hotherLexical := hroots _ hother
  have hcovers : Covers path (other, .write) := by
    refine ⟨hotherLexical, ?_⟩
    rw [startsWith_posix_iff hpath (posix_of_mem hposix hother) hlexical hotherLexical, hplace,
      ← startsWith_posix_iff hpath (posix_of_mem hposix hdecides.mem) hlexical hrootLexical]
    exact hdecides.holds.2
  have hle := hdecides.le _ hother hcovers
  have hlength : other.url.names.length = root.url.names.length := by
    have hlen := congrArg List.length hplace
    rw [length_place, length_place] at hlen
    omega
  rw [rank, rank, Prod.Lex.toLex_le_toLex, hlength] at hle
  rcases hle with hlt | ⟨-, hle⟩
  · exact absurd hlt (lt_irrefl _)
  · change write.precedence ≤ read.precedence at hle
    exact absurd hle (by decide)

/-- A path that counts as `/tmp` has its place. -/
theorem place_of_matches_slashTmp (h : specialPathMatchesPathUri .slashTmp root = true) :
    root.inferPathConvention = some .posix ∧ root.lexicalDepth.isSome = true ∧
      root.place = [.inl none, .inr (ascii "tmp")] := by
  simp only [specialPathMatchesPathUri, Bool.and_eq_true, decide_eq_true_eq] at h
  obtain ⟨⟨hposix, hdepth⟩, hbasename⟩ := h
  have hlexical : root.lexicalDepth.isSome = true := by rw [hdepth, Option.isSome_some]
  have hunclear := not_opaque_of_lexical hlexical
  have hlength : root.url.names.length = 1 := by
    have hnames := lexicalDepth_eq_names_length hlexical
    rw [hdepth] at hnames
    exact (Option.some.inj hnames).symm
  obtain ⟨name, hname⟩ := length_eq_one_iff.1 hlength
  have hdecoded : decodeUriPath name = ascii "tmp" := by
    rw [basename, hunclear, if_neg Bool.false_ne_true, hname] at hbasename
    exact Option.some.inj hbasename
  -- the spelling `tmp` itself is UTF-8, so that the name is compared by what it decodes to
  have hdecode : UrlCoding.decode name = ascii "tmp" := by
    rw [decodeUriPath] at hdecoded
    split_ifs at hdecoded with hutf8
    · exact hdecoded
    · rw [hdecoded] at hutf8
      exact absurd (by decide) hutf8
  refine ⟨hposix, hlexical, ?_⟩
  rw [place_posix hunclear hposix, hname, map_singleton, hdecode]

theorem place_of_matches_root (hposix : root.inferPathConvention = some .posix)
    (h : specialPathMatchesPathUri .root root = true) : root.place = [.inl none] := by
  simp only [specialPathMatchesPathUri, Bool.and_eq_true, Option.isNone_iff_eq_none] at h
  have hunclear := not_opaque_of_lexical h.1
  rw [place_posix hunclear hposix, (parent_posix_eq_none_iff hunclear hposix).1 h.2, map_nil]

theorem place_of_mem_slashTmp (hposix : PosixContext context)
    (h : root ∈ entryRoots crate context (.special .slashTmp)) :
    root.place = [.inl none, .inr (ascii "tmp")] := by
  obtain ⟨tmp, htmp, hunclear, htmpPosix, hnames⟩ := join_slash_tmp crate hposix.convention
  rw [entryRoots, if_pos hposix.convention, htmp] at h
  cases mem_singleton.1 h
  rw [place_posix hunclear htmpPosix, hnames, map_singleton]
  exact congrArg (fun s => [Sum.inl none, Sum.inr s]) (by decide)

theorem exists_slashTmp_root (crate : UrlCrate) (hposix : PosixContext context) :
    ∃ tmp, tmp ∈ entryRoots crate context (.special .slashTmp) ∧
      tmp.inferPathConvention = some .posix := by
  obtain ⟨tmp, htmp, -, htmpPosix, -⟩ := join_slash_tmp crate hposix.convention
  refine ⟨tmp, ?_, htmpPosix⟩
  rw [entryRoots, if_pos hposix.convention, htmp]
  exact mem_singleton_self tmp

/-- **A shared target is a shared place**: what a `read` entry stands for is also the place of a
root of every `write` entry with its target. -/
theorem exists_write_root_of_share (hposix : PosixContext context)
    {candidate : FileSystemSandboxEntry} (hroot : root ∈ entryRoots crate context entry.path)
    (hrootPosix : root.inferPathConvention = some .posix) (hcandidate : candidate ∈ policy.entries)
    (hwrite : candidate.access = .write)
    (hshare : fileSystemPathsShareTarget .posix candidate.path entry.path = true) :
    ∃ other, (other, .write) ∈ policy.resolvedEntries crate context ∧ other.place = root.place := by
  -- a root of the candidate is one of the policy's
  have hmem : ∀ other, other ∈ entryRoots crate context candidate.path →
      other.inferPathConvention = some .posix →
      (other, .write) ∈ policy.resolvedEntries crate context := fun other hother hotherPosix =>
    mem_resolvedEntries.2 ⟨candidate, hcandidate, hwrite, hother, by rw [hotherPosix, hposix.convention]⟩
  cases hentry : entry.path with
  | globPattern pattern =>
    rw [hentry] at hroot
    exact absurd hroot not_mem_nil
  | path p =>
    rw [hentry] at hroot hshare
    cases mem_singleton.1 hroot
    cases hcand : candidate.path with
    | globPattern pattern =>
      rw [hcand] at hshare
      cases hshare
    | path q =>
      rw [hcand] at hshare
      refine ⟨root, hmem root ?_ hrootPosix, rfl⟩
      rw [hcand]
      -- equal POSIX paths are one path
      rcases eq_or_identity_of_beq hshare with rfl | ⟨_, _, _, hidentity, _⟩
      · exact mem_singleton_self q
      · have hwindows := (windowsIdentityPathBytes_eq_some hidentity).1
        rw [hrootPosix] at hwindows
        cases hwindows
    | special value =>
      rw [hcand] at hshare hmem
      simp only [fileSystemPathsShareTarget, Bool.and_eq_true] at hshare
      cases value with
      | root =>
        obtain ⟨fsRoot, hfsRoot, -, hfsPosix, hplace⟩ := fileSystemRoot_posix hposix
        refine ⟨fsRoot, hmem fsRoot ?_ hfsPosix, ?_⟩
        · rw [entryRoots, hfsRoot]
          exact mem_singleton_self fsRoot
        · rw [hplace, place_of_matches_root hrootPosix hshare.2]
      | slashTmp =>
        obtain ⟨tmp, htmp, htmpPosix⟩ := exists_slashTmp_root crate hposix
        refine ⟨tmp, hmem tmp htmp htmpPosix, ?_⟩
        rw [place_of_mem_slashTmp hposix htmp, (place_of_matches_slashTmp hshare.2).2.2]
      | minimal => cases hshare.2
      | projectRoots subpath => cases hshare.2
      | tmpdir => cases hshare.2
      | unknown p subpath => cases hshare.2
  | special value =>
    rw [hentry] at hroot hshare
    cases hcand : candidate.path with
    | globPattern pattern =>
      rw [hcand] at hshare
      cases hshare
    | path q =>
      rw [hcand] at hshare hmem
      simp only [fileSystemPathsShareTarget, Bool.and_eq_true, decide_eq_true_eq] at hshare
      refine ⟨q, hmem q (mem_singleton_self q) hshare.1, ?_⟩
      cases value with
      | root =>
        obtain ⟨fsRoot, hfsRoot, -, -, hplace⟩ := fileSystemRoot_posix hposix
        rw [entryRoots, hfsRoot] at hroot
        cases mem_singleton.1 hroot
        rw [hplace, place_of_matches_root hshare.1 hshare.2]
      | slashTmp =>
        rw [place_of_mem_slashTmp hposix hroot, (place_of_matches_slashTmp hshare.2).2.2]
      | minimal => cases hshare.2
      | projectRoots subpath => cases hshare.2
      | tmpdir => cases hshare.2
      | unknown p subpath => cases hshare.2
    | special other =>
      rw [hcand] at hshare hmem
      -- equal symbols stand for the same roots
      have hsame : other = value ∨ ∃ p subpath, value = .unknown p subpath := by
        cases other <;> cases value <;>
          simp_all [fileSystemPathsShareTarget, specialPathsShareTarget]
      rcases hsame with rfl | ⟨p, subpath, rfl⟩
      · exact ⟨root, hmem root hroot hrootPosix, rfl⟩
      · exact absurd hroot not_mem_nil

/-! ## The flags on POSIX -/

/-- An entry with a root is shadowed by a `write` entry where the policy has write access to the
root and no narrowing entry. -/
theorem shadowed_of_not_narrowing (hkind : policy.kind = .restricted)
    (hrootAccess : policy.hasRootAccess canWrite = true)
    (hnarrow : policy.hasWriteNarrowingEntries .posix = false) (hentry : entry ∈ policy.entries)
    (hne : entry.access ≠ .write) (hroot : root ∈ entryRoots crate context entry.path) :
    entry.access = .read ∧ ∃ candidate ∈ policy.entries, candidate.access = .write ∧
      fileSystemPathsShareTarget .posix candidate.path entry.path = true := by
  have hcannot : entry.access.canWrite = false := by
    rw [canWrite, decide_eq_false_iff_not]
    exact hne
  simp only [hasWriteNarrowingEntries, hkind, decide_true, Bool.true_and, any_eq_false,
    Bool.not_eq_true] at hnarrow
  have hentryNarrow := hnarrow entry hentry
  rw [hcannot, if_neg Bool.false_ne_true] at hentryNarrow
  -- all entries but those of `:root` have to be overridden, and a `read` of `:root` is
  split at hentryNarrow
  · exact exists_override ((Bool.not_eq_false' _).mp hentryNarrow)
  · cases hentryNarrow
  case h_3 hpath =>
    obtain ⟨rootEntry, hrootEntry, hrootPath, hrootWrite⟩ := exists_root_entry hrootAccess
    have hread : entry.access = .read := by
      cases haccess : entry.access with
      | read => rfl
      | write => exact absurd haccess hne
      | deny => exact absurd haccess (decide_eq_false_iff_not.1 hentryNarrow)
    refine ⟨hread, rootEntry, hrootEntry, canWrite_iff.1 hrootWrite, ?_⟩
    rw [hrootPath, hpath]
    rfl
  · exact exists_override ((Bool.not_eq_false' _).mp hentryNarrow)
  case h_5 hpath =>
    rw [hpath] at hroot
    exact absurd hroot not_mem_nil
  case h_6 hpath =>
    rw [hpath] at hroot
    exact absurd hroot not_mem_nil
  · exact exists_override ((Bool.not_eq_false' _).mp hentryNarrow)

/-- **Full-disk write access is write access everywhere** on POSIX. -/
theorem resolveAccess_write_posix (hkind : policy.kind = .restricted) (hposix : PosixContext context)
    (hroots : ∀ entry ∈ policy.resolvedEntries crate context, entry.1.lexicalDepth.isSome = true)
    (hflag : policy.hasFullDiskWriteAccessForConvention (some .posix) = true)
    (hpath : path.inferPathConvention = some .posix) (hlexical : path.lexicalDepth.isSome = true) :
    policy.resolveAccess crate path context = .write := by
  rw [hasFullDiskWriteAccessForConvention, hkind] at hflag
  simp only [Option.any_some, Bool.and_eq_true, Bool.not_eq_true'] at hflag
  obtain ⟨hrootAccess, hnarrow⟩ := hflag
  obtain ⟨rootEntry, hrootEntry, hrootPath, hrootWrite⟩ := exists_root_entry hrootAccess
  obtain ⟨⟨root, access⟩, hdecides⟩ :=
    exists_decides_posix crate hposix hrootEntry hrootPath hpath hlexical
  rw [resolveAccess_of_decides hkind (checkable_posix hposix hroots hpath hlexical) hdecides]
  by_contra hne
  -- the entry behind the root is no narrowing one, so a `write` entry has its target
  obtain ⟨entry, hentry, rfl, hroot, -⟩ := mem_resolvedEntries.1 hdecides.mem
  have hrootPosix := posix_of_mem hposix hdecides.mem
  obtain ⟨hread, candidate, hcandidate, hwrite, hshare⟩ :=
    shadowed_of_not_narrowing hkind hrootAccess hnarrow hentry hne hroot
  obtain ⟨other, hother, hplace⟩ :=
    exists_write_root_of_share hposix hroot hrootPosix hcandidate hwrite hshare
  rw [hread] at hdecides
  exact read_not_decides hposix hroots hpath hlexical hdecides hother hplace

/-- **Full-disk read access is read access everywhere** on POSIX. -/
theorem resolveAccess_canRead_posix (hkind : policy.kind = .restricted)
    (hposix : PosixContext context)
    (hroots : ∀ entry ∈ policy.resolvedEntries crate context, entry.1.lexicalDepth.isSome = true)
    (hflag : policy.hasFullDiskReadAccessForConvention (some .posix) = true)
    (hpath : path.inferPathConvention = some .posix) (hlexical : path.lexicalDepth.isSome = true) :
    (policy.resolveAccess crate path context).canRead = true := by
  rw [hasFullDiskReadAccessForConvention, hkind] at hflag
  simp only [Bool.and_eq_true, Bool.not_eq_true'] at hflag
  obtain ⟨hrootAccess, hdenied⟩ := hflag
  obtain ⟨rootEntry, hrootEntry, hrootPath, -⟩ := exists_root_entry hrootAccess
  obtain ⟨⟨root, access⟩, hdecides⟩ :=
    exists_decides_posix crate hposix hrootEntry hrootPath hpath hlexical
  rw [resolveAccess_of_decides hkind (checkable_posix hposix hroots hpath hlexical) hdecides]
  obtain ⟨entry, hentry, rfl, -, -⟩ := mem_resolvedEntries.1 hdecides.mem
  simp only [hasDeniedReadRestrictionsForConvention, hkind, decide_true, Bool.true_and,
    any_eq_false, Bool.and_eq_true, decide_eq_true_eq, Bool.not_eq_true', not_and,
    Bool.not_eq_false] at hdenied
  rw [canRead, decide_eq_true_eq]
  intro hdeny
  have habsurd := hdenied entry hentry hdeny
  simp at habsurd

/-! ## Windows -/

/-- A share of a host. -/
def uncShare (host : Text) : PathUri where
  url :=
    { host := some host
      segments := [ascii "share"]
      segments_ne_nil := cons_ne_nil _ _
      noSlash := by decide }
  valid := FileUrl.validate_of_names (by
    intro name hname
    have hmem : name ∈ [ascii "share"] := (FileUrl.mem_names.1 hname).1
    rw [mem_singleton.1 hmem]
    decide)

theorem uncShare_convention (host : Text) : (uncShare host).inferPathConvention = some .windows := rfl

theorem uncShare_lexical (host : Text) : (uncShare host).lexicalDepth.isSome = true := by
  have hsegments : containmentPathSegments (uncShare host).url .windows =
      some (uncShare host).url.names := by
    have hnames : (uncShare host).url.names = [ascii "share"] := rfl
    rw [containmentPathSegments, hnames]
    decide
  have hunclear : (uncShare host).isOpaque = false := rfl
  rw [lexicalDepth_eq_some_iff.2
    ⟨hunclear, .windows, uncShare_convention host, hsegments, rfl⟩, Option.isSome_some]

theorem host_eq_of_startsWith {self base : PathUri} (h : self.startsWith base = true) :
    self.url.host = base.url.host := by
  rw [PathUri.startsWith] at h
  split_ifs at h with hbeq hunclear hhost
  · rcases PathUri.eq_or_identity_of_beq hbeq with rfl | ⟨-, -, -, -, hhost, -⟩
    · rfl
    · exact hhost
  · exact not_not.1 hhost

theorem exists_fresh_host (roots : List PathUri) :
    ∃ host : Text, ∀ root ∈ roots, root.url.host ≠ some host := by
  -- longer than every host of the list
  refine ⟨List.replicate (1 + (roots.map fun root => (root.url.host.getD []).length).sum) 'a',
    fun root hroot hhost => ?_⟩
  have hle : (root.url.host.getD []).length ≤
      (roots.map fun root => (root.url.host.getD []).length).sum :=
    le_sum_of_mem (mem_map.2 ⟨root, hroot, rfl⟩)
  rw [hhost, Option.getD_some, length_replicate] at hle
  omega

/-- **On Windows every restricted policy denies some path**: no root has all hosts below it. -/
theorem exists_denied_windows (crate : UrlCrate) (policy : FileSystemSandboxPolicy)
    (context : FileSystemSandboxPolicyContext) (hkind : policy.kind = .restricted) :
    ∃ path, path.inferPathConvention = some .windows ∧ path.lexicalDepth.isSome = true ∧
      policy.resolveAccess crate path context = .deny := by
  obtain ⟨host, hhost⟩ := exists_fresh_host ((policy.resolvedEntries crate context).map Prod.fst)
  refine ⟨uncShare host, uncShare_convention host, uncShare_lexical host, ?_⟩
  by_contra hne
  obtain ⟨-, entry, -, hdecides, -⟩ := exists_decides_of_ne_deny hkind hne
  exact hhost entry.1 (mem_map.2 ⟨entry, hdecides.mem, rfl⟩)
    (host_eq_of_startsWith hdecides.holds.2).symm

/-! ## The flags and the access -/

/-- The path `/work` of a POSIX executor. -/
def slashWork : PathUri where
  url :=
    { host := none
      segments := [ascii "work"]
      segments_ne_nil := cons_ne_nil _ _
      noSlash := by decide }
  valid := by decide

/-- When the flags say what the access is: the executor has POSIX paths and its working
directory is not ambiguous. -/
def OneRoot (context : FileSystemSandboxPolicyContext) (convention : PathConvention) : Prop :=
  convention = .posix ∧ context.cwd.lexicalDepth.isSome = true

/-- Outside of that case every restricted policy denies some path. -/
theorem exists_denied (hcwd : context.cwd.inferPathConvention = some convention)
    (hone : ¬ OneRoot context convention) (crate : UrlCrate) (policy : FileSystemSandboxPolicy)
    (hkind : policy.kind = .restricted) :
    ∃ path, path.inferPathConvention = some convention ∧ path.lexicalDepth.isSome = true ∧
      policy.resolveAccess crate path context = .deny := by
  cases convention with
  | windows => exact exists_denied_windows crate policy context hkind
  | posix =>
    refine ⟨slashWork, by decide, by decide, ?_⟩
    by_contra hne
    obtain ⟨_, hcheckable⟩ := exists_checkable_of_ne_deny hkind hne
    exact hone ⟨rfl, hcheckable.cwdLexical⟩

/-- A flag that is right on POSIX, for a property of an access that `write` has and `deny` does
not have. -/
theorem flag_iff {flag : Bool} (allowed : FileSystemAccessMode → Prop)
    (hcwd : context.cwd.inferPathConvention = some convention) (hwrite : allowed .write)
    (hdeny : ¬ allowed .deny)
    (hposix : policy.kind = .restricted → PosixContext context → flag = true →
      ∀ path, path.inferPathConvention = some .posix → path.lexicalDepth.isSome = true →
        allowed (policy.resolveAccess crate path context)) :
    (flag = true → ∀ path, path.inferPathConvention = some convention →
        path.lexicalDepth.isSome = true → allowed (policy.resolveAccess crate path context)) ↔
      (flag = true → policy.kind ≠ .restricted ∨ OneRoot context convention) := by
  constructor
  · intro h hflag
    by_contra hcond
    push Not at hcond
    obtain ⟨path, hpath, hlexical, haccess⟩ := exists_denied hcwd hcond.2 crate policy hcond.1
    have hallowed := h hflag path hpath hlexical
    rw [haccess] at hallowed
    exact hdeny hallowed
  · intro h hflag path hpath hlexical
    rcases h hflag with hkind | ⟨rfl, hcwdLexical⟩
    · rw [resolveAccess_unrestricted hkind]
      exact hwrite
    · by_cases hkind : policy.kind = .restricted
      · exact hposix hkind ⟨hcwd, hcwdLexical⟩ hflag path hpath hlexical
      · rw [resolveAccess_unrestricted hkind]
        exact hwrite

/-- **The full-disk flags.**  In a context with unambiguous roots, each flag of a restricted
policy says what `resolveAccess` gives exactly where it is not set, or where the executor has
POSIX paths and an unambiguous working directory. -/
theorem fullDiskAccess_iff (crate : UrlCrate) (policy : FileSystemSandboxPolicy)
    (context : FileSystemSandboxPolicyContext) (convention : PathConvention)
    (hcwd : context.cwd.inferPathConvention = some convention)
    (hroots : ∀ entry ∈ policy.resolvedEntries crate context, entry.1.lexicalDepth.isSome = true) :
    ((policy.hasFullDiskWriteAccessForConvention (some convention) = true →
        ∀ path, path.inferPathConvention = some convention → path.lexicalDepth.isSome = true →
          policy.resolveAccess crate path context = .write) ↔
      (policy.hasFullDiskWriteAccessForConvention (some convention) = true →
        policy.kind ≠ .restricted ∨ OneRoot context convention)) ∧
    ((policy.hasFullDiskReadAccessForConvention (some convention) = true →
        ∀ path, path.inferPathConvention = some convention → path.lexicalDepth.isSome = true →
          (policy.resolveAccess crate path context).canRead = true) ↔
      (policy.hasFullDiskReadAccessForConvention (some convention) = true →
        policy.kind ≠ .restricted ∨ OneRoot context convention)) := by
  constructor
  · refine flag_iff (fun access => access = .write) hcwd rfl (nofun) ?_
    intro hkind hposix hflag path hpath hlexical
    cases Option.some.inj (hcwd.symm.trans hposix.convention)
    exact resolveAccess_write_posix hkind hposix hroots hflag hpath hlexical
  · refine flag_iff (fun access => access.canRead = true) hcwd rfl Bool.false_ne_true ?_
    intro hkind hposix hflag path hpath hlexical
    cases Option.some.inj (hcwd.symm.trans hposix.convention)
    exact resolveAccess_canRead_posix hkind hposix hroots hflag hpath hlexical

/-- A policy that makes everything writable. -/
def everythingWritable : FileSystemSandboxPolicy :=
  .ofEntries [{ path := .special .root, access := .write }]

/-- The context of a working directory, without workspace roots and temporary directories. -/
def contextOf (cwd : PathUri) : FileSystemSandboxPolicyContext where
  cwd := cwd
  workspaceRoots := []
  userHomeDir := none
  temporaryDirectories := none

/-- The flags of `everythingWritable` below `/work`. -/
theorem fullDiskAccess_slashWork :
    (everythingWritable.hasFullDiskWriteAccessForConvention (some .posix) = true →
        ∀ path, path.inferPathConvention = some .posix → path.lexicalDepth.isSome = true →
          everythingWritable.resolveAccess .percentEncoding path (contextOf slashWork) = .write) ∧
    (everythingWritable.hasFullDiskReadAccessForConvention (some .posix) = true →
        ∀ path, path.inferPathConvention = some .posix → path.lexicalDepth.isSome = true →
          (everythingWritable.resolveAccess .percentEncoding path (contextOf slashWork)).canRead =
            true) := by
  have h := fullDiskAccess_iff .percentEncoding everythingWritable (contextOf slashWork) .posix
    (by decide) (by decide)
  have hone : OneRoot (contextOf slashWork) .posix := ⟨rfl, by decide⟩
  exact ⟨h.1.2 fun _ => .inr hone, h.2.2 fun _ => .inr hone⟩

/-- A directory of a drive. -/
def workOnC : PathUri where
  url :=
    { host := none
      segments := [ascii "C:", ascii "work"]
      segments_ne_nil := cons_ne_nil _ _
      noSlash := by decide }
  valid := by decide

/-- A file of another drive. -/
def fileOnD : PathUri where
  url :=
    { host := none
      segments := [ascii "D:", ascii "x"]
      segments_ne_nil := cons_ne_nil _ _
      noSlash := by decide }
  valid := by decide

/-- **The other drive.**  With `:root` writable and the working directory on `C:`, the flags
say that all of the disk is writable and readable, and a path on `D:` is denied. -/
theorem other_drive_is_denied :
    everythingWritable.hasFullDiskWriteAccessForConvention (some .windows) = true ∧
    everythingWritable.hasFullDiskReadAccessForConvention (some .windows) = true ∧
    (contextOf workOnC).cwd.inferPathConvention = some .windows ∧
    (everythingWritable.resolvedEntries .percentEncoding (contextOf workOnC)).all
      (fun entry => entry.1.lexicalDepth.isSome) = true ∧
    fileOnD.inferPathConvention = some .windows ∧ fileOnD.lexicalDepth.isSome = true ∧
    everythingWritable.resolveAccess .percentEncoding fileOnD (contextOf workOnC) = .deny := by
  decide

end Permissions
