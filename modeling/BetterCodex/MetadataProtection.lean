/-
# Protected metadata

Below every writable root the names of `protectedMetadataPathNames` are protected: a path at or
below one of them may be written only through a `write` entry of its own.  The code takes the
first writable root and name, in the order of the entries, that protect a path, and looks for
an entry that overrides this protection; `protections` lists all that protect the path.
-/
import BetterCodex.FullDiskAccess

namespace Permissions

open RustStr Paths Utf8 DeepestRule FileSystemSandboxPolicy Option

variable {crate : UrlCrate} {policy : FileSystemSandboxPolicy} {path : PathUri}
  {context : FileSystemSandboxPolicyContext}

/-! ## All protections of a path -/

/-- The protected path of a writable root and a metadata name, where it lies at or above the
path. -/
def protection (crate : UrlCrate) (path root : PathUri) (metadataName : Text) :
    Option (PathUri × Text) :=
  (root.joinDescendant crate metadataName).bind fun protectedPath =>
    if path.startsWith protectedPath then some (protectedPath, metadataName) else none

theorem protection_eq_some {root : PathUri} {name : Text} {pair : PathUri × Text} :
    protection crate path root name = some pair ↔
      root.joinDescendant crate name = some pair.1 ∧ path.startsWith pair.1 = true ∧
        pair.2 = name := by
  obtain ⟨protectedPath, metadataName⟩ := pair
  simp only [protection, bind_eq_some_iff, ite_none_right_eq_some, some.injEq, Prod.mk.injEq]
  constructor
  · rintro ⟨p, hjoin, hstarts, rfl, rfl⟩
    exact ⟨hjoin, hstarts, rfl⟩
  · rintro ⟨hjoin, hstarts, rfl⟩
    exact ⟨protectedPath, hjoin, hstarts, rfl, rfl⟩

/-- The protections of a path, in the order in which the code tries them. -/
def protections (crate : UrlCrate) (policy : FileSystemSandboxPolicy) (path : PathUri)
    (context : FileSystemSandboxPolicyContext) : List (PathUri × Text) :=
  ((policy.resolvedEntries crate context).filter fun entry => entry.2.canWrite).flatMap fun entry =>
    protectedMetadataPathNames.filterMap (protection crate path entry.1)

/-- The protections of a path, root by root and name by name. -/
theorem mem_protections {pair : PathUri × Text} :
    pair ∈ protections crate policy path context ↔
      ∃ root, (root, .write) ∈ policy.resolvedEntries crate context ∧
        pair.2 ∈ protectedMetadataPathNames ∧ root.joinDescendant crate pair.2 = some pair.1 ∧
        path.startsWith pair.1 = true := by
  simp only [protections, List.mem_flatMap, List.mem_filter, canWrite_iff, List.mem_filterMap,
    protection_eq_some]
  constructor
  · rintro ⟨⟨root, access⟩, ⟨hmem, rfl⟩, name, hname, hjoin, hstarts, rfl⟩
    exact ⟨root, hmem, hname, hjoin, hstarts⟩
  · rintro ⟨root, hmem, hname, hjoin, hstarts⟩
    exact ⟨(root, .write), ⟨hmem, rfl⟩, pair.2, hname, hjoin, hstarts, rfl⟩

theorem exists_first {pair : PathUri × Text} (h : pair ∈ protections crate policy path context) :
    ∃ first, (protections crate policy path context).head? = some first := by
  obtain ⟨first, rest, hcons⟩ := List.exists_cons_of_ne_nil (List.ne_nil_of_mem h)
  rw [hcons]
  exact ⟨first, rfl⟩

/-- A `write` entry at or below the protected path covers the path. -/
def Overridden (crate : UrlCrate) (policy : FileSystemSandboxPolicy) (path : PathUri)
    (context : FileSystemSandboxPolicyContext) (protectedPath : PathUri) : Prop :=
  ∃ root, (root, .write) ∈ policy.resolvedEntries crate context ∧ path.startsWith root = true ∧
    root.startsWith protectedPath = true

theorem any_iff_overridden {protectedPath : PathUri} :
    ((policy.resolvedEntries crate context).any fun entry =>
      entry.2.canWrite && path.startsWith entry.1 && entry.1.startsWith protectedPath) = true ↔
      Overridden crate policy path context protectedPath := by
  simp only [List.any_eq_true, Bool.and_eq_true, canWrite_iff, Overridden]
  constructor
  · rintro ⟨⟨root, access⟩, hmem, ⟨rfl, hcovers⟩, hbelow⟩
    exact ⟨root, hmem, hcovers, hbelow⟩
  · rintro ⟨root, hmem, hcovers, hbelow⟩
    exact ⟨(root, .write), hmem, ⟨rfl, hcovers⟩, hbelow⟩

instance (protectedPath : PathUri) : Decidable (Overridden crate policy path context protectedPath) :=
  decidable_of_iff _ any_iff_overridden

/-! ## What the code looks at -/

/-- Two searches, one inside the other, find the first of all. -/
theorem findSome?_findSome? {α β γ : Type} (f : α → β → Option γ) (l : List α) (m : List β) :
    (l.findSome? fun a => m.findSome? (f a)) = (l.flatMap fun a => m.filterMap (f a)).head? := by
  rw [List.head?_flatMap]
  exact congrArg (List.findSome? · l) (funext fun a => List.head?_filterMap.symm)

/-- No denial means that the first protection, if any, is overridden. -/
theorem metadataWriteDenial_eq_none_iff (hkind : policy.kind = .restricted) :
    policy.metadataWriteDenial crate path context = none ↔
      ∀ pair, (protections crate policy path context).head? = some pair →
        Overridden crate policy path context pair.1 := by
  have hfirst : (((policy.resolvedEntries crate context).filter fun entry =>
      entry.2.canWrite).findSome? fun entry => protectedMetadataPathNames.findSome?
        (protection crate path entry.1)) = (protections crate policy path context).head? :=
    findSome?_findSome? (fun entry : PathUri × FileSystemAccessMode => protection crate path entry.1) _ _
  rw [metadataWriteDenial, if_neg (not_not.2 hkind)]
  change ((((policy.resolvedEntries crate context).filter fun entry =>
      entry.2.canWrite).findSome? fun entry => protectedMetadataPathNames.findSome?
        (protection crate path entry.1)).bind _) = none ↔ _
  rw [hfirst]
  cases (protections crate policy path context).head? with
  | none => exact iff_of_true rfl (fun pair h => nomatch h)
  | some first =>
    simp only [bind_some, ite_eq_left_iff, reduceCtorEq, imp_false, not_not,
      some.injEq, forall_eq', any_iff_overridden]

/-- **What `canWritePath` asks for**: write access, and that the first protection of the path, if
there is one, is overridden. -/
theorem canWritePath_iff (hkind : policy.kind = .restricted)
    (hfull : policy.hasFullDiskWriteAccessWithContext context = false) :
    policy.canWritePath crate path context = true ↔
      policy.resolveAccess crate path context = .write ∧
        ∀ pair, (protections crate policy path context).head? = some pair →
          Overridden crate policy path context pair.1 := by
  rw [canWritePath, hfull, Bool.false_or, Bool.and_eq_true, canWrite_iff, isNone_iff_eq_none,
    metadataWriteDenial_eq_none_iff hkind]

/-! ## Metadata directories in the tree of paths -/

theorem length_normalizeDriveSegment (segments : List Bytes) :
    ((normalizeDriveSegment segments).filter (· ≠ [])).length =
      (segments.filter (· ≠ [])).length := by
  induction segments with
  | nil => rfl
  | cons segment rest ih =>
    rw [normalizeDriveSegment]
    split_ifs with hempty
    · simpa [hempty] using ih
    · have hne : normalizedDrive segment ≠ [] := by
        obtain ⟨drive, name, rfl⟩ := List.exists_cons_of_ne_nil hempty
        rw [normalizedDrive]
        split_ifs
        all_goals exact List.cons_ne_nil _ _
      simp [hempty, hne]

/-- The normal form of a URL has as many names. -/
theorem length_names_tryFrom {url : FileUrl} {uri : PathUri} (h : PathUri.tryFrom url = some uri) :
    uri.url.names.length = url.names.length := by
  rw [PathUri.tryFrom] at h
  split_ifs at h
  have hnames : (withoutLocalhostAuthority url).names = url.names := by
    rw [withoutLocalhostAuthority]
    split_ifs
    all_goals rfl
  rw [← some.inj h, ← hnames]
  show (withNormalizedWindowsDriveLetter (withoutLocalhostAuthority url)).names.length = _
  rw [withNormalizedWindowsDriveLetter]
  split_ifs
  · rfl
  · exact length_normalizeDriveSegment _

/-- Joining a metadata name appends it. -/
theorem tryFrom_push_of_join {root joined : PathUri} {name : Text}
    (hname : name ∈ protectedMetadataPathNames) (h : root.join crate name = some joined) :
    PathUri.tryFrom (crate.push root.url.popIfEmpty name) = some joined := by
  have hnames : name = ".git".toList ∨ name = ".agents".toList ∨ name = ".codex".toList ∨
      name = ".aws".toList := by
    simpa [protectedMetadataPathNames] using hname
  have hplain : '\x00' ∉ name ∧ name ≠ [] := by
    rcases hnames with rfl | rfl | rfl | rfl <;> decide
  rw [PathUri.join, if_neg hplain.1, if_neg hplain.2] at h
  obtain ⟨convention, -, h⟩ := bind_eq_some_iff.1 h
  -- a metadata name is no absolute path, has no drive and is one component
  have habsolute : PathUri.fromAbsoluteNativePath crate name convention = none := by
    cases convention <;> rcases hnames with rfl | rfl | rfl | rfl <;> rfl
  have hdrive : PathUri.withoutSameDrive root convention name = some name := by
    cases convention <;> rcases hnames with rfl | rfl | rfl | rfl <;> rfl
  rw [habsolute, hdrive] at h
  simp only [bind_eq_bind, bind_some] at h
  by_cases hunclear : root.isOpaque = true
  · rw [if_pos hunclear] at h
    cases h
  rw [if_neg hunclear] at h
  rw [← h]
  cases convention <;> rcases hnames with rfl | rfl | rfl | rfl <;> rfl

/-- **A metadata directory lies directly below its root.** -/
theorem below_of_joinDescendant {root protectedPath : PathUri} {name : Text}
    (hname : name ∈ protectedMetadataPathNames)
    (h : root.joinDescendant crate name = some protectedPath) :
    PathUri.Below protectedPath root ∧
      protectedPath.url.names.length = root.url.names.length + 1 := by
  rw [PathUri.joinDescendant] at h
  obtain ⟨joined, hjoin, h⟩ := bind_eq_some_iff.1 h
  dsimp only at h
  split_ifs at h with hoff
  cases some.inj h
  have hplain : IsPlain name := by
    have hall : ∀ name ∈ protectedMetadataPathNames, IsPlain name := by decide
    exact hall name hname
  have hlength : protectedPath.url.names.length = root.url.names.length + 1 := by
    rw [length_names_tryFrom (tryFrom_push_of_join hname hjoin),
      (crate.push_plain _ name hplain).2, FileUrl.names_popIfEmpty, List.length_append]
    rfl
  have hstarts : protectedPath.startsWith root = true := by
    rw [not_or, not_or, Bool.not_eq_false] at hoff
    exact hoff.2.2
  refine ⟨(PathUri.startsWith_iff_below.1 hstarts).resolve_left fun hbeq => ?_, hlength⟩
  have hsame := PathUri.length_place_of_beq hbeq
  rw [PathUri.length_place, PathUri.length_place] at hsame
  omega

/-! ## All protections are respected -/

/-- If the path may be written, every protection of it is overridden. -/
def Respected (crate : UrlCrate) (policy : FileSystemSandboxPolicy) (path : PathUri)
    (context : FileSystemSandboxPolicyContext) : Prop :=
  policy.canWritePath crate path context = true →
    ∀ root metadataName protectedPath, (root, .write) ∈ policy.resolvedEntries crate context →
      metadataName ∈ protectedMetadataPathNames →
      root.joinDescendant crate metadataName = some protectedPath →
      path.startsWith protectedPath = true → Overridden crate policy path context protectedPath

/-- The path lies in the metadata of the writable root that decides it, and this root lies in the
metadata directory that the code finds first. -/
structure Shadowed (crate : UrlCrate) (policy : FileSystemSandboxPolicy) (path : PathUri)
    (context : FileSystemSandboxPolicyContext) (root : PathUri) : Prop where
  access : policy.resolveAccess crate path context = .write
  decides : Decides (policy.resolvedEntries crate context) (Covers path) rank (root, .write)
  protects : ∃ metadataName ∈ protectedMetadataPathNames, ∃ protectedPath,
    root.joinDescendant crate metadataName = some protectedPath ∧
      path.startsWith protectedPath = true
  inside : ∃ first, (protections crate policy path context).head? = some first ∧
    root.startsWith first.1 = true

/-- No writable root lies in the metadata of a writable root. -/
def Unnested (crate : UrlCrate) (policy : FileSystemSandboxPolicy)
    (context : FileSystemSandboxPolicyContext) : Prop :=
  ∀ root metadataName protectedPath, (root, .write) ∈ policy.resolvedEntries crate context →
    metadataName ∈ protectedMetadataPathNames →
    root.joinDescendant crate metadataName = some protectedPath →
    ∀ inner, (inner, .write) ∈ policy.resolvedEntries crate context →
      inner.startsWith protectedPath = false

/-- The path is no other spelling of a writable root or of its metadata. -/
def SpelledAsRoots (crate : UrlCrate) (policy : FileSystemSandboxPolicy) (path : PathUri)
    (context : FileSystemSandboxPolicyContext) : Prop :=
  ∀ root, (root, .write) ∈ policy.resolvedEntries crate context → ¬ path.Respells root ∧
    ∀ metadataName ∈ protectedMetadataPathNames, ∀ protectedPath,
      root.joinDescendant crate metadataName = some protectedPath → ¬ path.Respells protectedPath

theorem length_le_of_startsWith {self base : PathUri} (h : self.startsWith base = true) :
    base.url.names.length ≤ self.url.names.length := by
  rcases PathUri.startsWith_iff_below.1 h with hbeq | hbelow
  · have hsame := PathUri.length_place_of_beq hbeq
    rw [PathUri.length_place, PathUri.length_place] at hsame
    omega
  · exact hbelow.length_le

/-- A writable root at or above the path is no longer than one that decides it. -/
theorem length_le_of_decides {root inner : PathUri} (hlexical : path.lexicalDepth.isSome = true)
    (h : Decides (policy.resolvedEntries crate context) (Covers path) rank (root, .write))
    (hinner : (inner, .write) ∈ policy.resolvedEntries crate context)
    (hstarts : path.startsWith inner = true) :
    inner.url.names.length ≤ root.url.names.length := by
  have hinnerLexical : inner.lexicalDepth.isSome = true := by
    rcases PathUri.startsWith_iff_below.1 hstarts with hbeq | hbelow
    · rcases PathUri.eq_or_lexical_of_beq hbeq with rfl | ⟨-, -, hinnerLexical⟩
      · exact hlexical
      · exact hinnerLexical
    · exact hbelow.baseLexical
  have hle := h.le (inner, .write) hinner ⟨hinnerLexical, hstarts⟩
  rw [rank, rank, Prod.Lex.toLex_le_toLex] at hle
  rcases hle with hlt | ⟨heq, -⟩
  · exact hlt.le
  · exact heq.le

section
variable (hkind : policy.kind = .restricted)
  (hfull : policy.hasFullDiskWriteAccessWithContext context = false)
include hkind hfull

/-- **A shadowed root is not respected**: it overrides the protection that the code looks at, and no
root lies in its own metadata. -/
theorem not_shadowed_of_respected (h : Respected crate policy path context) (root : PathUri) :
    ¬ Shadowed crate policy path context root := by
  intro hshadowed
  obtain ⟨metadataName, hname, protectedPath, hjoin, hstarts⟩ := hshadowed.protects
  obtain ⟨first, hfirst, hinside⟩ := hshadowed.inside
  have hroot := hshadowed.decides
  have hwrite : policy.canWritePath crate path context = true := by
    refine (canWritePath_iff hkind hfull).2 ⟨hshadowed.access, fun pair hpair => ?_⟩
    rw [← some.inj (hfirst.symm.trans hpair)]
    exact ⟨root, hroot.mem, hroot.holds.2, hinside⟩
  obtain ⟨inner, hinner, hcovers, hbelow⟩ :=
    h hwrite root metadataName protectedPath hroot.mem hname hjoin hstarts
  have hne : policy.resolveAccess crate path context ≠ .deny := by
    rw [hshadowed.access]
    decide
  obtain ⟨_, hcheckable⟩ := exists_checkable_of_ne_deny hkind hne
  have hle := length_le_of_decides hcheckable.pathLexical hroot hinner hcovers
  have hinnerLength := length_le_of_startsWith hbelow
  have hlength := (below_of_joinDescendant hname hjoin).2
  omega

/-- **A protection that is not respected is shadowed**: its root decides the path, and the root that
overrides the first protection is at or above it. -/
theorem respected_of_not_shadowed (hspelled : SpelledAsRoots crate policy path context)
    (h : ∀ root, ¬ Shadowed crate policy path context root) :
    Respected crate policy path context := by
  intro hwrite root metadataName protectedPath hroot hname hjoin hstarts
  by_contra hnot
  obtain ⟨haccess, hfirst⟩ := (canWritePath_iff hkind hfull).1 hwrite
  have hne : policy.resolveAccess crate path context ≠ .deny := by
    rw [haccess]
    decide
  obtain ⟨_, ⟨decider, access⟩, hcheckable, hdecides, hdeciderAccess⟩ :=
    exists_decides_of_ne_deny hkind hne
  obtain rfl : access = .write := hdeciderAccess.symm.trans haccess
  have hlexical := hcheckable.pathLexical
  have hbelowDecider :=
    PathUri.below_of_startsWith hdecides.holds.2 hlexical (hspelled decider hdecides.mem).1
  have hbelowProtected := PathUri.below_of_startsWith hstarts hlexical
    ((hspelled root hroot).2 metadataName hname protectedPath hjoin)
  obtain ⟨hbelow, hlength⟩ := below_of_joinDescendant hname hjoin
  have hbelowRoot := hbelowProtected.trans hbelow
  -- the decider does not override the protection, so it is no longer than the root
  have hshort : decider.url.names.length < protectedPath.url.names.length := by
    by_contra hlong
    exact hnot ⟨decider, hdecides.mem, hdecides.holds.2,
      (hbelowDecider.of_length_le hbelowProtected (not_lt.1 hlong)).startsWith⟩
  have hle := length_le_of_decides hlexical hdecides hroot hbelowRoot.startsWith
  have hrank : rank (decider, .write) = rank (root, .write) := by
    rw [rank, rank]
    dsimp only
    rw [show decider.url.names.length = root.url.names.length by omega]
  have hrootDecides : Decides (policy.resolvedEntries crate context) (Covers path) rank
      (root, .write) :=
    ⟨hroot, ⟨hbelow.baseLexical, hbelowRoot.startsWith⟩, fun other hother hcovers =>
      hrank ▸ hdecides.le other hother hcovers⟩
  obtain ⟨first, hhead⟩ :=
    exists_first (mem_protections.2 ⟨root, hroot, hname, hjoin, hstarts⟩ :
      (protectedPath, metadataName) ∈ _)
  obtain ⟨inner, hinner, hcovers, hinnerBelow⟩ := hfirst first hhead
  obtain ⟨other, hother, hotherName, hotherJoin, hotherStarts⟩ :=
    mem_protections.1 (List.mem_of_head? hhead)
  have hbelowFirst := PathUri.below_of_startsWith hotherStarts hlexical
    ((hspelled other hother).2 first.2 hotherName first.1 hotherJoin)
  have hinnerLength := length_le_of_decides hlexical hrootDecides hinner hcovers
  have hfirstLength := length_le_of_startsWith hinnerBelow
  exact h root ⟨haccess, hrootDecides, ⟨metadataName, hname, protectedPath, hjoin, hstarts⟩,
    first, hhead, (hbelowRoot.of_length_le hbelowFirst (by omega)).startsWith⟩

/-- Where no root is nested in metadata, nothing overrides a protection. -/
theorem respected_of_unnested (h : Unnested crate policy context) :
    Respected crate policy path context := by
  intro hwrite root metadataName protectedPath hroot hname hjoin hstarts
  obtain ⟨-, hfirst⟩ := (canWritePath_iff hkind hfull).1 hwrite
  obtain ⟨first, hhead⟩ :=
    exists_first (mem_protections.2 ⟨root, hroot, hname, hjoin, hstarts⟩ :
      (protectedPath, metadataName) ∈ _)
  obtain ⟨inner, hinner, -, hinnerBelow⟩ := hfirst first hhead
  obtain ⟨other, hother, hotherName, hotherJoin, -⟩ := mem_protections.1 (List.mem_of_head? hhead)
  rw [h other first.2 first.1 hother hotherName hotherJoin inner hinner] at hinnerBelow
  cases hinnerBelow

end

/-- **Metadata protection.**  All protections of a path are respected exactly where the path has
no write access, or all of them are overridden, or the first of them is not.  Read off the
roots: a protection is lost exactly if the path lies in the metadata of the root that decides it
while this root lies in the metadata directory that comes first in the order of the entries.
Without a writable root in the metadata of another one none is ever lost. -/
theorem metadata_respected_iff (crate : UrlCrate) (policy : FileSystemSandboxPolicy)
    (context : FileSystemSandboxPolicyContext) (path : PathUri) (hkind : policy.kind = .restricted)
    (hfull : policy.hasFullDiskWriteAccessWithContext context = false) :
    (Respected crate policy path context ↔
      policy.resolveAccess crate path context ≠ .write ∨
        (∀ pair ∈ protections crate policy path context,
          Overridden crate policy path context pair.1) ∨
        ∃ pair, (protections crate policy path context).head? = some pair ∧
          ¬ Overridden crate policy path context pair.1) ∧
    (SpelledAsRoots crate policy path context →
      (Respected crate policy path context ↔ ∀ root, ¬ Shadowed crate policy path context root)) ∧
    (Unnested crate policy context → Respected crate policy path context) := by
  refine ⟨?_, fun hspelled => ⟨not_shadowed_of_respected hkind hfull,
    respected_of_not_shadowed hkind hfull hspelled⟩, respected_of_unnested hkind hfull⟩
  rw [Respected, canWritePath_iff hkind hfull]
  constructor
  · intro h
    by_cases haccess : policy.resolveAccess crate path context = .write
    · refine Or.inr ?_
      by_cases hfirst : ∀ pair, (protections crate policy path context).head? = some pair →
          Overridden crate policy path context pair.1
      · refine Or.inl fun pair hpair => ?_
        obtain ⟨root, hroot, hname, hjoin, hstarts⟩ := mem_protections.1 hpair
        exact h ⟨haccess, hfirst⟩ root pair.2 pair.1 hroot hname hjoin hstarts
      · push Not at hfirst
        exact Or.inr hfirst
    · exact Or.inl haccess
  · rintro h ⟨haccess, hfirst⟩ root name protectedPath hroot hname hjoin hstarts
    rcases h with hne | hall | ⟨pair, hpair, hnot⟩
    · exact absurd haccess hne
    · exact hall (protectedPath, name) (mem_protections.2 ⟨root, hroot, hname, hjoin, hstarts⟩)
    · exact absurd (hfirst pair hpair) hnot

/-! ## Nested roots -/

/-- A directory. -/
def slashA : PathUri where
  url :=
    { host := none
      segments := [ascii "a"]
      segments_ne_nil := List.cons_ne_nil _ _
      noSlash := by decide }
  valid := by decide

/-- A directory inside of the metadata of the first. -/
def insideGit : PathUri where
  url :=
    { host := none
      segments := [ascii "a", ascii ".git", ascii "b"]
      segments_ne_nil := List.cons_ne_nil _ _
      noSlash := by decide }
  valid := by decide

/-- The metadata of the second directory. -/
def innerGit : PathUri where
  url :=
    { host := none
      segments := [ascii "a", ascii ".git", ascii "b", ascii ".git"]
      segments_ne_nil := List.cons_ne_nil _ _
      noSlash := by decide }
  valid := by decide

/-- A file in the metadata of the second directory. -/
def innerGitConfig : PathUri where
  url :=
    { host := none
      segments := [ascii "a", ascii ".git", ascii "b", ascii ".git", ascii "config"]
      segments_ne_nil := List.cons_ne_nil _ _
      noSlash := by decide }
  valid := by decide

/-- The paths, all writable, in this order. -/
def writable (paths : List PathUri) : FileSystemSandboxPolicy :=
  .ofEntries (paths.map fun path => { path := .path path, access := .write })

/-- The second root may be written, and it overrides the protection of the first. -/
theorem metadata_respected_insideGit :
    (writable [slashA, insideGit]).canWritePath .percentEncoding insideGit (contextOf slashA) =
      true ∧
    Respected .percentEncoding (writable [slashA, insideGit]) insideGit (contextOf slashA) := by
  have h := metadata_respected_iff .percentEncoding (writable [slashA, insideGit])
    (contextOf slashA) insideGit rfl (by decide)
  exact ⟨by decide, h.1.2 (Or.inr (Or.inl (by decide)))⟩

/-- **The order of the entries matters.**  With `/a` and `/a/.git/b` writable, in this order,
`/a/.git/b/.git/config` may be written although no entry lies at or below `/a/.git/b/.git`: the
code looks at `/a/.git` only, which the second root overrides.  In the other order the same
path may not be written. -/
theorem inner_metadata_is_writable :
    (writable [slashA, insideGit]).kind = .restricted ∧
    (writable [slashA, insideGit]).hasFullDiskWriteAccessWithContext (contextOf slashA) = false ∧
    (writable [slashA, insideGit]).canWritePath .percentEncoding innerGitConfig
      (contextOf slashA) = true ∧
    insideGit.joinDescendant .percentEncoding ".git".toList = some innerGit ∧
    innerGitConfig.startsWith innerGit = true ∧
    ((writable [slashA, insideGit]).resolvedEntries .percentEncoding (contextOf slashA)).all
      (fun entry => !entry.1.startsWith innerGit) = true ∧
    (writable [insideGit, slashA]).canWritePath .percentEncoding innerGitConfig
      (contextOf slashA) = false := by
  refine ⟨by decide, by decide, by decide, ?_, by decide,
    by decide, by decide⟩
  have hurl : (insideGit.joinDescendant .percentEncoding ".git".toList).map PathUri.url =
      some innerGit.url := by decide
  obtain ⟨protectedPath, hjoin, hprotected⟩ := Option.map_eq_some_iff.1 hurl
  rw [hjoin, PathUri.eq_of_url_eq hprotected]

end Permissions
