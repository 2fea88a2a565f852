/-
# Containment of path URIs

`startsWith` compares the names of two paths one by one.  This file reads it as an order: a URI
whose names are not ambiguous has a `place`, the list of its host and of what its names are
compared by, and a path lies at or below another one if the place of the latter is a prefix.
-/
import BetterCodex.PathUriJoin

namespace Paths

open RustStr Utf8 UrlCoding List FileUrl

/-! ## URIs that are not opaque -/

theorem decode_ne_nil {s : Bytes} (h : s ≠ []) : decode s ≠ [] := by
  match s, h with
  | [_], _ => exact cons_ne_nil _ _
  | [_, _], _ => exact cons_ne_nil _ _
  | a :: b :: c :: rest, _ =>
    rw [decode]
    split_ifs
    · cases escaped b c
      all_goals exact cons_ne_nil _ _
    · exact cons_ne_nil _ _

namespace FileUrl

variable {url : FileUrl}

theorem mem_names {name : Bytes} : name ∈ url.names ↔ name ∈ url.segments ∧ name ≠ [] := by
  rw [names, mem_filter, decide_eq_true_eq]

/-- An opaque URL has an encoded null byte. -/
theorem nul_mem_names {bytes : Bytes} (h : url.decodeBadPathUri = some bytes) :
    ascii "%00" ∈ url.names := by
  rw [decodeBadPathUri] at h
  split at h
  · rename_i first second third encodedPath hhost hsegments
    split_ifs at h with hfront
    refine mem_names.2 ⟨?_, by decide⟩
    rw [hsegments, hfront.1]
    exact mem_cons_self
  · cases h

theorem decodeBadPathUri_eq_none (h : ∀ name ∈ url.names, 0 ∉ decode name) :
    url.decodeBadPathUri = none := by
  cases hunclear : url.decodeBadPathUri with
  | none => rfl
  | some bytes => exact absurd (by decide) (h _ (nul_mem_names hunclear))

theorem validate_of_names (h : ∀ name ∈ url.names, 0 ∉ decode name) : url.validate = true := by
  rw [validate, Bool.or_eq_true, all_eq_true]
  right
  intro segment hsegment
  by_cases hne : segment = []
  · rw [hne]
    rfl
  · simpa using h segment (mem_names.2 ⟨hsegment, hne⟩)

theorem names_popIfEmpty (url : FileUrl) : url.popIfEmpty.names = url.names := by
  rw [popIfEmpty]
  split_ifs with h
  · have hlast : url.segments.getLast url.segments_ne_nil = [] := by
      have hsome := getLast?_eq_some_getLast url.segments_ne_nil
      rw [h.2] at hsome
      exact (Option.some.inj hsome).symm
    rw [names, names]
    dsimp only
    conv_rhs => rw [← dropLast_append_getLast url.segments_ne_nil, hlast]
    simp
  · rfl

theorem names_pop_isPrefix (url : FileUrl) : url.pop.names <+: url.names := by
  rw [pop]
  split_ifs
  · refine IsPrefix.filter _ ?_
    exact dropLast_prefix url.segments
  · exact nil_prefix

end FileUrl

namespace PathUri

variable {uri : PathUri}

theorem nul_not_mem (h : uri.isOpaque = false) {name : Bytes} (hname : name ∈ uri.url.names) :
    0 ∉ decode name := by
  have hvalid := uri.valid
  rw [isOpaque, opaqueFallbackBytes] at h
  rw [validate, h, Bool.false_or, all_eq_true] at hvalid
  simpa using hvalid name (mem_names.1 hname).1

theorem inferPathConvention_of_clear (h : uri.isOpaque = false) :
    uri.inferPathConvention =
      if uri.url.host.isSome then some .windows
      else if uri.url.names.head?.any isWindowsDriveUriSegment then some .windows
      else some .posix := by
  rw [isOpaque, Option.isSome_eq_false_iff, Option.isNone_iff_eq_none] at h
  rw [inferPathConvention, h]

theorem posix_iff (h : uri.isOpaque = false) :
    uri.inferPathConvention = some .posix ↔
      uri.url.host = none ∧ uri.url.names.head?.any isWindowsDriveUriSegment = false := by
  rw [inferPathConvention_of_clear h]
  cases hhost : uri.url.host with
  | some host => simp
  | none =>
    cases hdrive : uri.url.names.head?.any isWindowsDriveUriSegment with
    | true => simp
    | false => simp

/-- The depth is the number of names, if none of them is ambiguous. -/
theorem lexicalDepth_eq_some_iff {depth : ℕ} :
    uri.lexicalDepth = some depth ↔
      uri.isOpaque = false ∧ ∃ convention, uri.inferPathConvention = some convention ∧
        containmentPathSegments uri.url convention = some uri.url.names ∧
        depth = uri.url.names.length := by
  rw [lexicalDepth]
  cases hunclear : uri.isOpaque with
  | true => simp
  | false =>
    rw [if_neg Bool.false_ne_true]
    cases hinfer : uri.inferPathConvention with
    | none => simp
    | some convention =>
      show (containmentPathSegments uri.url convention).map List.length = some depth ↔ _
      cases hsegments : containmentPathSegments uri.url convention with
      | none => simp [hsegments]
      | some segments =>
        have hnames : segments = uri.url.names := by
          rw [containmentPathSegments] at hsegments
          split_ifs at hsegments
          exact (Option.some.inj hsegments).symm
        subst hnames
        simp [hsegments, eq_comm]

theorem exists_convention_of_lexical (h : uri.lexicalDepth.isSome = true) :
    ∃ convention, uri.inferPathConvention = some convention := by
  obtain ⟨depth, hdepth⟩ := Option.isSome_iff_exists.1 h
  obtain ⟨-, convention, hconv, -⟩ := lexicalDepth_eq_some_iff.1 hdepth
  exact ⟨convention, hconv⟩

theorem lexicalDepth_eq_names_length (h : uri.lexicalDepth.isSome = true) :
    uri.lexicalDepth = some uri.url.names.length := by
  obtain ⟨depth, hdepth⟩ := Option.isSome_iff_exists.1 h
  rw [hdepth, (lexicalDepth_eq_some_iff.1 hdepth).2.choose_spec.2.2]

theorem not_opaque_of_lexical (h : uri.lexicalDepth.isSome = true) : uri.isOpaque = false := by
  obtain ⟨depth, hdepth⟩ := Option.isSome_iff_exists.1 h
  exact (lexicalDepth_eq_some_iff.1 hdepth).1

theorem containmentPathSegments_of_lexical (h : uri.lexicalDepth.isSome = true)
    {convention : PathConvention} (hconv : uri.inferPathConvention = some convention) :
    containmentPathSegments uri.url convention = some uri.url.names := by
  obtain ⟨depth, hdepth⟩ := Option.isSome_iff_exists.1 h
  obtain ⟨-, c, hc, hsegments, -⟩ := lexicalDepth_eq_some_iff.1 hdepth
  rw [hconv] at hc
  cases hc
  exact hsegments

end PathUri

/-! ## Containment as a prefix -/

/-- What a name is compared by. -/
def segmentKey : PathConvention → Bytes → Bytes
  | .posix, segment => decode segment
  | .windows, segment => (decodeUriPath segment).map lowercaseByte

/-- Two spellings of one letter case are compared alike. -/
theorem decodeUriPath_congr {s t : Bytes} (h : s.map lowercaseByte = t.map lowercaseByte) :
    (decodeUriPath s).map lowercaseByte = (decodeUriPath t).map lowercaseByte := by
  have hdecode := lowercase_decode_congr h
  rw [decodeUriPath, decodeUriPath, isUtf8_congr_lowercase hdecode]
  split_ifs
  · exact hdecode
  · exact h

theorem windows_same_iff (path base : Bytes) :
    (eqIgnoreAsciiCase path base || eqIgnoreAsciiCase (decodeUriPath path) (decodeUriPath base)) =
      true ↔ segmentKey .windows path = segmentKey .windows base := by
  rw [Bool.or_eq_true, eqIgnoreAsciiCase, eqIgnoreAsciiCase, beq_iff_eq, beq_iff_eq]
  exact ⟨fun h => h.elim decodeUriPath_congr id, Or.inr⟩

/-- Names that agree one by one up to the length of the base. -/
theorem zip_all_iff_prefix {same : Bytes × Bytes → Bool} {key : Bytes → Bytes}
    (hsame : ∀ path base, same (path, base) = true ↔ key path = key base) :
    ∀ path base : List Bytes,
      (decide (base.length ≤ path.length) && (path.zip base).all same) = true ↔
        base.map key <+: path.map key
  | path, [] => by simp
  | [], b :: base => by simp
  | p :: path, b :: base => by
    have ih := zip_all_iff_prefix hsame path base
    rw [Bool.and_eq_true, decide_eq_true_eq] at ih ⊢
    rw [zip_cons_cons, all_cons, Bool.and_eq_true, hsame, map_cons, map_cons,
      cons_prefix_cons, ← ih, length_cons, length_cons, Nat.add_le_add_iff_right]
    constructor
    · rintro ⟨hlength, hkey, hall⟩
      exact ⟨hkey.symm, hlength, hall⟩
    · rintro ⟨hkey, hlength, hall⟩
      exact ⟨hlength, hkey.symm, hall⟩

/-- Containment of names as a prefix. -/
theorem nativePathSegmentsStartWith_iff (path base : List Bytes) (convention : PathConvention) :
    nativePathSegmentsStartWith path base convention = true ↔
      base.map (segmentKey convention) <+: path.map (segmentKey convention) := by
  cases convention with
  | posix => exact zip_all_iff_prefix (fun _ _ => beq_iff_eq) path base
  | windows => exact zip_all_iff_prefix windows_same_iff path base

namespace PathUri

/-- The host and what the names are compared by. -/
def place (uri : PathUri) : List (Option Text ⊕ Bytes) :=
  .inl uri.url.host ::
    uri.url.names.map fun name => .inr (segmentKey (uri.inferPathConvention.getD .posix) name)

@[simp] theorem length_place (uri : PathUri) : uri.place.length = uri.url.names.length + 1 := by
  rw [place, length_cons, length_map]

theorem map_inr_prefix {s t : List Bytes} :
    (s.map (Sum.inr : Bytes → Option Text ⊕ Bytes)) <+: t.map Sum.inr ↔ s <+: t :=
  prefix_map_iff_of_injective Sum.inr_injective

variable {self base : PathUri} {convention : PathConvention}

theorem place_prefix_iff (hself : self.inferPathConvention = some convention)
    (hbase : base.inferPathConvention = some convention) :
    base.place <+: self.place ↔
      self.url.host = base.url.host ∧
        base.url.names.map (segmentKey convention) <+: self.url.names.map (segmentKey convention) := by
  rw [place, place, hself, hbase, cons_prefix_cons, Sum.inl.injEq, eq_comm]
  refine and_congr_right fun _ => ?_
  rw [← map_inr_prefix, map_map, map_map]
  rfl

/-- **Containment is equality or a prefix of places.** -/
theorem startsWith_iff (hself : self.inferPathConvention = some convention)
    (hbase : base.inferPathConvention = some convention)
    (hselfDepth : self.lexicalDepth.isSome = true) (hbaseDepth : base.lexicalDepth.isSome = true) :
    self.startsWith base = true ↔ (self == base) = true ∨ base.place <+: self.place := by
  rw [place_prefix_iff hself hbase, startsWith]
  cases hbeq : self == base with
  | true => simp
  | false =>
    rw [if_neg Bool.false_ne_true, not_opaque_of_lexical hselfDepth,
      not_opaque_of_lexical hbaseDepth, Bool.or_false, if_neg Bool.false_ne_true]
    by_cases hhost : self.url.host = base.url.host
    · rw [if_neg (not_not.2 hhost)]
      dsimp only
      rw [hself, hbase, if_neg (not_not.2 rfl), Option.getD_some,
        containmentPathSegments_of_lexical hselfDepth hself,
        containmentPathSegments_of_lexical hbaseDepth hbase]
      dsimp only
      rw [nativePathSegmentsStartWith_iff]
      simp [hhost]
    · rw [if_pos hhost]
      simp [hhost]

/-! ## Equal URIs -/

/-- The names of a Windows path are UTF-8. -/
def Spelled (uri : PathUri) : Prop :=
  uri.inferPathConvention = some .windows →
    ∀ name ∈ uri.url.names, isUtf8 (decode name) = true

instance (uri : PathUri) : Decidable uri.Spelled :=
  inferInstanceAs (Decidable (_ → _))

variable {uri : PathUri}

theorem spelled_of_posix (h : uri.inferPathConvention = some .posix) : uri.Spelled := by
  intro hwindows
  rw [h] at hwindows
  cases hwindows

theorem beq_refl (uri : PathUri) : (uri == uri) = true := by
  show (decide (uri.url = uri.url) || _) = true
  rw [decide_eq_true rfl, Bool.true_or]

theorem decode_path (url : FileUrl) :
    decode url.path = 0x2f :: [0x2f].intercalate (url.segments.map decode) := by
  rw [path, decode_cons_of_ne (by decide)]
  congr 1
  induction url.segments with
  | nil => rfl
  | cons segment rest ih =>
    cases rest with
    | nil => simp [List.intercalate]
    | cons next rest =>
      rw [intercalate_cons_cons, append_assoc, singleton_append, decode_append_slash, ih]
      simp only [map_cons, intercalate_cons_cons, append_assoc, singleton_append]

variable {other : PathUri}

theorem eq_of_url_eq (h : self.url = other.url) : self = other := by
  obtain ⟨url, valid⟩ := self
  obtain ⟨url', valid'⟩ := other
  cases h
  rfl

theorem windowsIdentityPathBytes_eq_some {path : Bytes}
    (h : uri.windowsIdentityPathBytes = some path) :
    uri.inferPathConvention = some .windows ∧
      (∀ segment ∈ uri.url.segments, 0x2f ∉ decode segment) ∧ path = decode uri.url.path := by
  rw [windowsIdentityPathBytes] at h
  split_ifs at h with hcond
  simp only [Bool.or_eq_true, decide_eq_true_eq, any_eq_true, not_or, not_not,
    not_exists, not_and, beq_iff_eq] at hcond
  refine ⟨hcond.1.1, fun segment hsegment hslash => ?_, (Option.some.inj h).symm⟩
  exact (hcond.2 segment hsegment 0x2f hslash).1 rfl

/-- A path with a Windows identity has a depth. -/
theorem lexical_of_windowsIdentityPathBytes {path : Bytes}
    (h : uri.windowsIdentityPathBytes = some path) : uri.lexicalDepth.isSome = true := by
  rw [windowsIdentityPathBytes] at h
  split_ifs at h with hcond
  simp only [Bool.or_eq_true, decide_eq_true_eq, not_or, not_not, Bool.not_eq_true] at hcond
  obtain ⟨⟨hconv, hunclear⟩, hsegments⟩ := hcond
  -- the names are among the segments, none of which hides a separator
  have hnames : containmentPathSegments uri.url .windows = some uri.url.names := by
    rw [containmentPathSegments, if_neg]
    rw [Bool.not_eq_true, any_eq_false]
    rw [any_eq_false] at hsegments
    intro name hname
    exact hsegments name (mem_names.1 hname).1
  rw [lexicalDepth_eq_some_iff.2 ⟨hunclear, .windows, hconv, hnames, rfl⟩, Option.isSome_some]

/-- Equal URIs are the same, or Windows paths up to letter case. -/
theorem eq_or_identity_of_beq (h : (self == other) = true) :
    self = other ∨ ∃ path otherPath, self.windowsIdentityPathBytes = some path ∧
      other.windowsIdentityPathBytes = some otherPath ∧ self.url.host = other.url.host ∧
      path.map lowercaseByte = otherPath.map lowercaseByte := by
  rw [beq_def, Bool.or_eq_true, decide_eq_true_eq] at h
  rcases h with hurl | hidentity
  · exact Or.inl (eq_of_url_eq hurl)
  · right
    cases hself : self.windowsIdentityPathBytes with
    | none =>
      rw [hself] at hidentity
      cases hidentity
    | some path =>
      cases hother : other.windowsIdentityPathBytes with
      | none =>
        rw [hself, hother] at hidentity
        cases hidentity
      | some otherPath =>
        rw [hself, hother] at hidentity
        simp only [Bool.and_eq_true, decide_eq_true_eq, eqIgnoreAsciiCase, beq_iff_eq] at hidentity
        exact ⟨path, otherPath, rfl, rfl, hidentity.1, hidentity.2⟩

theorem beq_of_identity {path otherPath : Bytes} (hself : self.windowsIdentityPathBytes = some path)
    (hother : other.windowsIdentityPathBytes = some otherPath) (hhost : self.url.host = other.url.host)
    (h : path.map lowercaseByte = otherPath.map lowercaseByte) : (self == other) = true := by
  rw [beq_def, hself, hother]
  simp [eqIgnoreAsciiCase, hhost, h]

theorem slash_not_mem_lowercase {s : Bytes} (h : 0x2f ∉ s) : 0x2f ∉ s.map lowercaseByte := by
  have hbyte : ∀ b : UInt8, lowercaseByte b = 0x2f → b = 0x2f := forall_byte (by decide)
  intro hmem
  obtain ⟨b, hb, hslash⟩ := mem_map.1 hmem
  exact h (hbyte b hslash ▸ hb)

theorem lowercase_decode_path (url : FileUrl) :
    (decode url.path).map lowercaseByte =
      0x2f :: [0x2f].intercalate (url.segments.map fun s => (decode s).map lowercaseByte) := by
  rw [decode_path, map_cons]
  refine congrArg (0x2f :: ·) ?_
  induction url.segments with
  | nil => rfl
  | cons segment rest ih =>
    cases rest with
    | nil => simp [List.intercalate]
    | cons next rest =>
      simp only [map_cons, intercalate_cons_cons, map_append] at ih ⊢
      rw [ih]
      rfl

/-- The names of a path in letter-case-free decoded form. -/
theorem map_names_eq_filter (url : FileUrl) :
    url.names.map (fun s => (decode s).map lowercaseByte) =
      (url.segments.map fun s => (decode s).map lowercaseByte).filter (· ≠ []) := by
  rw [names, filter_map]
  refine congrArg (List.map _) (filter_congr fun s _ => ?_)
  by_cases hs : s = []
  · simp [hs, decode]
  · simp [hs, decode_ne_nil hs]

/-- **Equal URIs have the same names**, up to their coding and letter case. -/
theorem lowercase_names_of_beq (h : (self == other) = true) :
    self.url.names.map (fun s => (decode s).map lowercaseByte) =
      other.url.names.map fun s => (decode s).map lowercaseByte := by
  rcases eq_or_identity_of_beq h with rfl | ⟨path, otherPath, hpath, hotherPath, -, hbytes⟩
  · rfl
  · obtain ⟨-, hslash, rfl⟩ := windowsIdentityPathBytes_eq_some hpath
    obtain ⟨-, hslash', rfl⟩ := windowsIdentityPathBytes_eq_some hotherPath
    rw [map_names_eq_filter, map_names_eq_filter]
    refine congrArg (List.filter _) ?_
    rw [lowercase_decode_path, lowercase_decode_path] at hbytes
    have hsplit := congrArg (List.splitOn 0x2f) (List.cons.inj hbytes).2
    rwa [splitOn_intercalate, splitOn_intercalate] at hsplit
    · intro l hl
      obtain ⟨s, hs, rfl⟩ := mem_map.1 hl
      exact slash_not_mem_lowercase (hslash' s hs)
    · simpa using other.url.segments_ne_nil
    · intro l hl
      obtain ⟨s, hs, rfl⟩ := mem_map.1 hl
      exact slash_not_mem_lowercase (hslash s hs)
    · simpa using self.url.segments_ne_nil

/-- **Equal URIs have one place**, if their names are UTF-8. -/
theorem place_eq_of_beq (h : (self == other) = true) (hself : self.Spelled)
    (hother : other.Spelled) : self.place = other.place := by
  have hnames := lowercase_names_of_beq h
  rcases eq_or_identity_of_beq h with rfl | ⟨path, otherPath, hpath, hotherPath, hhost, -⟩
  · rfl
  · have hconv := (windowsIdentityPathBytes_eq_some hpath).1
    have hconv' := (windowsIdentityPathBytes_eq_some hotherPath).1
    -- where the names are UTF-8 they are compared by what they decode to
    have hkey : ∀ uri : PathUri, uri.Spelled → uri.inferPathConvention = some .windows →
        uri.url.names.map (segmentKey .windows) =
          uri.url.names.map fun s => (decode s).map lowercaseByte := by
      intro uri hspelled hwindows
      refine map_congr_left fun name hname => ?_
      rw [segmentKey, decodeUriPath, if_pos (hspelled hwindows name hname)]
    rw [← hkey self hself hconv, ← hkey other hother hconv'] at hnames
    rw [place, place, hconv, hconv', hhost]
    have hinr := congrArg (List.map (Sum.inr : Bytes → Option Text ⊕ Bytes)) hnames
    rw [map_map, map_map] at hinr
    exact congrArg _ hinr

/-- Equal URIs are one URI, or both have a place in the tree. -/
theorem eq_or_lexical_of_beq (h : (self == other) = true) :
    self = other ∨ self.inferPathConvention = other.inferPathConvention ∧
      self.lexicalDepth.isSome = true ∧ other.lexicalDepth.isSome = true := by
  rcases eq_or_identity_of_beq h with heq | ⟨path, otherPath, hself, hother, -, -⟩
  · exact Or.inl heq
  · right
    rw [(windowsIdentityPathBytes_eq_some hself).1, (windowsIdentityPathBytes_eq_some hother).1]
    exact ⟨rfl, lexical_of_windowsIdentityPathBytes hself, lexical_of_windowsIdentityPathBytes hother⟩

/-! ## The tree of paths -/

/-- `path` lies at or below `base` in the tree of paths. -/
structure Below (path base : PathUri) : Prop where
  lexical : path.lexicalDepth.isSome = true
  baseLexical : base.lexicalDepth.isSome = true
  convention : path.inferPathConvention = base.inferPathConvention
  place : base.place <+: path.place

theorem lexical_of_segments {segments : List Bytes} (hunclear : uri.isOpaque = false)
    (hconv : uri.inferPathConvention = some convention)
    (h : containmentPathSegments uri.url convention = some segments) :
    uri.lexicalDepth.isSome = true := by
  rw [lexicalDepth, hunclear, if_neg Bool.false_ne_true, hconv]
  show ((containmentPathSegments uri.url convention).map List.length).isSome = true
  rw [h]
  rfl

/-- A path outside the tree lies only below what equals it. -/
theorem startsWith_iff_below :
    self.startsWith base = true ↔ (self == base) = true ∨ Below self base := by
  constructor
  · intro h
    by_cases hbeq : (self == base) = true
    · exact Or.inl hbeq
    right
    have hstarts := h
    rw [startsWith, if_neg hbeq] at h
    dsimp only at h
    split_ifs at h with hunclear hhost hconv
    rw [Bool.or_eq_true, not_or, Bool.not_eq_true, Bool.not_eq_true] at hunclear
    rw [not_not] at hconv
    obtain ⟨convention, hself⟩ : ∃ c, self.inferPathConvention = some c := by
      rw [inferPathConvention_of_clear hunclear.1]
      split_ifs
      all_goals exact ⟨_, rfl⟩
    have hbase := hconv.symm.trans hself
    rw [hself, Option.getD_some] at h
    split at h
    · rename_i hsegments hsegments'
      have hlexical := lexical_of_segments hunclear.1 hself hsegments
      have hlexical' := lexical_of_segments hunclear.2 hbase hsegments'
      have hplace := (startsWith_iff hself hbase hlexical hlexical').1 hstarts
      exact ⟨hlexical, hlexical', hconv, hplace.resolve_left hbeq⟩
    · cases h
  · rintro (h | h)
    · rw [startsWith, if_pos h]
    · obtain ⟨convention, hself⟩ := exists_convention_of_lexical h.lexical
      exact (startsWith_iff hself (h.convention.symm.trans hself) h.lexical h.baseLexical).2
        (Or.inr h.place)

namespace Below

variable {path : PathUri}

theorem startsWith (h : Below self base) : self.startsWith base = true :=
  startsWith_iff_below.2 (Or.inr h)

theorem trans (h : Below self base) (h' : Below base other) : Below self other :=
  ⟨h.lexical, h'.baseLexical, h.convention.trans h'.convention, h'.place.trans h.place⟩

theorem length_le (h : Below self base) : base.url.names.length ≤ self.url.names.length := by
  have hle := h.place.length_le
  rw [length_place, length_place] at hle
  omega

/-- **Of two paths above a third the longer one lies below the other.** -/
theorem of_length_le (h : Below path self) (h' : Below path base)
    (hle : base.url.names.length ≤ self.url.names.length) : Below self base := by
  refine ⟨h.baseLexical, h'.baseLexical, h.convention.symm.trans h'.convention, ?_⟩
  refine prefix_of_prefix_length_le h'.place h.place ?_
  rw [length_place, length_place]
  exact Nat.add_le_add_right hle 1

theorem overlaps (h : Below path self) (h' : Below path base) : self.overlaps base = some true := by
  rw [PathUri.overlaps]
  split_ifs
  · rfl
  · rw [lexicalDepth_eq_names_length h.baseLexical, lexicalDepth_eq_names_length h'.baseLexical]
    rcases le_total base.url.names.length self.url.names.length with hle | hle
    · rw [(h.of_length_le h' hle).startsWith, Bool.true_or]
      rfl
    · rw [(h'.of_length_le h hle).startsWith, Bool.or_true]
      rfl

end Below

/-! ## Two spellings of one path -/

/-- The two are equal, but do not lie at one place.  Only Windows paths do this to each other, and
only those with a name that is not UTF-8 and is coded in two ways. -/
def Respells (self other : PathUri) : Prop := (self == other) = true ∧ self.place ≠ other.place

theorem not_respells_of_spelled (hself : self.Spelled) (hother : other.Spelled) :
    ¬ self.Respells other :=
  fun h => h.2 (place_eq_of_beq h.1 hself hother)

theorem below_of_beq (h : (self == base) = true) (hself : self.lexicalDepth.isSome = true)
    (hplace : self.place = base.place) : Below self base := by
  rcases eq_or_lexical_of_beq h with rfl | ⟨hconv, -, hbase⟩
  · exact ⟨hself, hself, rfl, prefix_rfl⟩
  · exact ⟨hself, hbase, hconv, hplace ▸ prefix_rfl⟩

/-- **A path lies below what it starts with**, unless it is another spelling of it. -/
theorem below_of_startsWith (h : self.startsWith base = true)
    (hself : self.lexicalDepth.isSome = true) (hspelled : ¬ self.Respells base) : Below self base := by
  rcases startsWith_iff_below.1 h with hbeq | hbelow
  · exact below_of_beq hbeq hself (not_not.1 fun hplace => hspelled ⟨hbeq, hplace⟩)
  · exact hbelow

/-! ## Equal URIs in place of each other -/

theorem length_place_of_beq (h : (self == other) = true) : self.place.length = other.place.length := by
  have hlength := congrArg List.length (lowercase_names_of_beq h)
  rw [length_map, length_map] at hlength
  rw [length_place, length_place, hlength]

theorem beq_symm (h : (self == other) = true) : (other == self) = true := by
  rcases eq_or_identity_of_beq h with rfl | ⟨path, otherPath, hself, hother, hhost, hbytes⟩
  · exact h
  · exact beq_of_identity hother hself hhost.symm hbytes.symm

theorem beq_trans (h : (self == base) = true) (h' : (base == other) = true) :
    (self == other) = true := by
  rcases eq_or_identity_of_beq h with rfl | ⟨path, basePath, hself, hbase, hhost, hbytes⟩
  · exact h'
  rcases eq_or_identity_of_beq h' with rfl | ⟨basePath', path', hbase', hother, hhost', hbytes'⟩
  · exact h
  cases hbase.symm.trans hbase'
  exact beq_of_identity hself hother (hhost.trans hhost') (hbytes.trans hbytes')

/-- Containment in places is the same for other spellings of one place. -/
theorem below_congr {path path' base base' : PathUri} (hpath : (path == path') = true)
    (hbase : (base == base') = true) (hplace : path.place = path'.place)
    (hplace' : base.place = base'.place) (h : Below path base) : Below path' base' := by
  have hlexical : ∀ {uri uri' : PathUri}, (uri == uri') = true → uri.lexicalDepth.isSome = true →
      uri'.lexicalDepth.isSome = true ∧ uri.inferPathConvention = uri'.inferPathConvention := by
    intro uri uri' hbeq huri
    rcases eq_or_lexical_of_beq hbeq with rfl | ⟨hconv, -, huri'⟩
    · exact ⟨huri, rfl⟩
    · exact ⟨huri', hconv⟩
  obtain ⟨hpathLexical, hpathConv⟩ := hlexical hpath h.lexical
  obtain ⟨hbaseLexical, hbaseConv⟩ := hlexical hbase h.baseLexical
  refine ⟨hpathLexical, hbaseLexical, ?_, hplace ▸ hplace' ▸ h.place⟩
  rw [← hpathConv, h.convention, hbaseConv]

/-- **A path below a Windows path**, whose place only has that path's own above it. -/
theorem exists_child (hwindows : uri.inferPathConvention = some .windows)
    (hlexical : uri.lexicalDepth.isSome = true) :
    ∃ child, Below child uri ∧ child.place.length = uri.place.length + 1 := by
  have hunclear := not_opaque_of_lexical hlexical
  let url := uri.url.append (ascii "x") (by decide)
  have hnames : url.names = uri.url.names ++ [ascii "x"] := names_append _ _ (by decide)
  have hnul : ∀ name ∈ url.names, 0 ∉ decode name := by
    rw [hnames]
    exact forall_mem_append.2 ⟨fun name => nul_not_mem hunclear, by decide⟩
  let child : PathUri := ⟨url, validate_of_names hnul⟩
  have hclear : child.isOpaque = false := by
    rw [isOpaque, opaqueFallbackBytes, decodeBadPathUri_eq_none hnul, Option.isSome_none]
  have hconv : child.inferPathConvention = some .windows := by
    rw [inferPathConvention_of_clear hunclear] at hwindows
    rw [inferPathConvention_of_clear hclear]
    show (if uri.url.host.isSome then _ else if url.names.head?.any _ then _ else _) = _
    rw [hnames]
    split_ifs at hwindows with hhost hdrive
    · rw [if_pos hhost]
    · obtain ⟨name, hname, hdrive⟩ := (Option.any_eq_true _ _).1 hdrive
      rw [if_neg hhost, head?_append, hname]
      exact if_pos hdrive
    · cases hwindows
  have hsegments : containmentPathSegments url .windows = some url.names := by
    have huri := containmentPathSegments_of_lexical hlexical hwindows
    rw [containmentPathSegments] at huri ⊢
    split_ifs at huri with hhidden
    rw [if_neg]
    rw [hnames, any_append, Bool.or_eq_true, not_or]
    exact ⟨hhidden, by decide⟩
  refine ⟨child, ⟨lexical_of_segments hclear hconv hsegments, hlexical, hconv.trans hwindows.symm, ?_⟩, ?_⟩
  · refine (place_prefix_iff hconv hwindows).2 ⟨rfl, ?_⟩
    show _ <+: url.names.map _
    rw [hnames, map_append]
    exact prefix_append _ _
  · rw [length_place, length_place]
    show url.names.length + 1 = _
    rw [hnames, length_append]
    rfl

/-- A URI that everything below an equal one is below has the place of that one. -/
theorem place_eq_of_below (h : (self == other) = true)
    (hall : ∀ child, Below child self → child.startsWith other = true) : self.place = other.place := by
  rcases eq_or_identity_of_beq h with rfl | ⟨path, otherPath, hself, -⟩
  · rfl
  obtain ⟨child, hbelow, hlength⟩ := exists_child (windowsIdentityPathBytes_eq_some hself).1
    (lexical_of_windowsIdentityPathBytes hself)
  have hsame := length_place_of_beq h
  rcases startsWith_iff_below.1 (hall child hbelow) with hbeq | hbelow'
  · have hchild := length_place_of_beq hbeq
    omega
  · exact (prefix_of_prefix_length_le hbelow.place hbelow'.place hsame.le).eq_of_length hsame

/-- Equal URIs with one place stand for each other. -/
theorem startsWith_congr (h : (self == other) = true) (hplace : self.place = other.place)
    (uri : PathUri) : self.startsWith uri = other.startsWith uri ∧
      uri.startsWith self = uri.startsWith other := by
  have hsymm := beq_symm h
  have hrefl := beq_refl uri
  constructor
  · rw [Bool.eq_iff_iff, startsWith_iff_below, startsWith_iff_below]
    exact or_congr ⟨beq_trans hsymm, beq_trans h⟩
      ⟨below_congr h hrefl hplace rfl, below_congr hsymm hrefl hplace.symm rfl⟩
  · rw [Bool.eq_iff_iff, startsWith_iff_below, startsWith_iff_below]
    exact or_congr ⟨fun hbeq => beq_trans hbeq h, fun hbeq => beq_trans hbeq hsymm⟩
      ⟨below_congr hrefl h rfl hplace, below_congr hrefl hsymm rfl hplace.symm⟩

/-- **When containment is an order up to equality.**  It is reflexive; equal URIs stand for each
other exactly if they have one place; and containment continues through a URI exactly if all URIs
equal to it have its place. -/
theorem startsWith_order_iff (q : PathUri) :
    q.startsWith q = true ∧
    (∀ q', (q == q') = true →
      ((∀ p, q.startsWith p = q'.startsWith p ∧ p.startsWith q = p.startsWith q') ↔
        q.place = q'.place)) ∧
    ((∀ p r : PathUri, p.startsWith q = true → q.startsWith r = true → p.startsWith r = true) ↔
      ∀ q', (q == q') = true → q.place = q'.place) := by
  refine ⟨startsWith_iff_below.2 (Or.inl (beq_refl q)), fun q' h => ⟨fun hall => ?_, ?_⟩,
    fun htrans q' h => ?_, fun hplace p r h h' => ?_⟩
  · refine place_eq_of_below h fun child hbelow => ?_
    rw [← (hall child).2]
    exact startsWith_iff_below.2 (Or.inr hbelow)
  · exact startsWith_congr h
  · refine place_eq_of_below h fun child hbelow => ?_
    exact htrans child q' (startsWith_iff_below.2 (Or.inr hbelow)) (startsWith_iff_below.2 (Or.inl h))
  · rcases startsWith_iff_below.1 h with hbeq | hbelow
    · rwa [(startsWith_congr hbeq (hplace p (beq_symm hbeq)).symm r).1]
    · rcases startsWith_iff_below.1 h' with hbeq | hbelow'
      · rwa [← (startsWith_congr hbeq (hplace r hbeq) p).2]
      · exact (hbelow.trans hbelow').startsWith

/-- `file:///C:/` with names. -/
def onDriveC (names : List Bytes) (hslash : ∀ name ∈ ascii "C:" :: names, 0x2f ∉ name)
    (hvalid : validate ⟨none, ascii "C:" :: names, cons_ne_nil _ _, hslash⟩ = true) :
    PathUri := ⟨_, hvalid⟩

/-- `a%FF` and `%61%FF` are one name, but what is below the one is not below the other. -/
theorem startsWith_not_congr :
    let p := onDriveC [ascii "a%FF"] (by decide) (by decide)
    let p' := onDriveC [ascii "%61%FF"] (by decide) (by decide)
    let child := onDriveC [ascii "a%FF", ascii "x"] (by decide) (by decide)
    (p == p') = true ∧ child.startsWith p = true ∧ p.startsWith p' = true ∧
      child.startsWith p' = false := by
  decide

/-! ## The root above a POSIX path -/

variable {parent : PathUri}

theorem parent_eq_some (h : uri.parent = some parent) :
    uri.isOpaque = false ∧ parent.url = uri.url.popIfEmpty.pop := by
  rw [PathUri.parent] at h
  split_ifs at h with hunclear
  obtain ⟨convention, hconv, hsome⟩ := Option.bind_eq_some_iff.1 h
  split_ifs at hsome
  refine ⟨?_, ?_⟩
  · rw [isOpaque, opaqueFallbackBytes, hunclear, Option.isSome_none]
  · rw [← Option.some.inj hsome]

/-- Only the root has no parent. -/
theorem parent_posix_eq_none_iff (hunclear : uri.isOpaque = false)
    (hposix : uri.inferPathConvention = some .posix) : uri.parent = none ↔ uri.url.names = [] := by
  rw [isOpaque, opaqueFallbackBytes, Option.isSome_eq_false_iff, Option.isNone_iff_eq_none] at hunclear
  rw [PathUri.parent, dif_pos hunclear, hposix, Option.bind_some]
  have hanchor : uri.url.names.length ≤ anchorDepth .posix ↔ uri.url.names = [] := by
    rw [← length_eq_zero_iff, ← Nat.le_zero]
    rfl
  rw [← hanchor]
  split_ifs with hnames
  · simp [hnames]
  · simp [hnames]

/-- The parent of a POSIX path is one. -/
theorem parent_posix (h : uri.parent = some parent)
    (hposix : uri.inferPathConvention = some .posix) :
    parent.isOpaque = false ∧ parent.inferPathConvention = some .posix := by
  obtain ⟨hunclear, hurl⟩ := parent_eq_some h
  obtain ⟨hhost, hdrive⟩ := (posix_iff hunclear).1 hposix
  have hfront : parent.url.names <+: uri.url.names := by
    rw [hurl]
    refine (FileUrl.names_pop_isPrefix _).trans ?_
    rw [names_popIfEmpty]
  have hunclear' : parent.isOpaque = false := by
    rw [isOpaque, opaqueFallbackBytes, decodeBadPathUri_eq_none, Option.isSome_none]
    exact fun name hname => nul_not_mem hunclear (hfront.subset hname)
  refine ⟨hunclear', (posix_iff hunclear').2 ⟨?_, ?_⟩⟩
  · rw [hurl, host_pop, host_popIfEmpty, hhost]
  · cases hnames : parent.url.names with
    | nil => rfl
    | cons name names =>
      -- the first name is the one of the path
      rw [hnames] at hfront
      obtain ⟨rest, hrest⟩ := hfront
      rw [← hrest] at hdrive
      exact hdrive

/-- The parent is shorter, or the root. -/
theorem segments_parent (h : uri.parent = some parent) :
    parent.url.segments.length < uri.url.segments.length ∨ parent.url.names = [] := by
  have hpop : ∀ url : FileUrl, url.pop.segments.length < url.segments.length ∨ url.pop.names = [] := by
    intro url
    rw [pop]
    split_ifs with hlength
    · left
      rw [length_dropLast]
      omega
    · exact Or.inr rfl
  have hpopIfEmpty : uri.url.popIfEmpty.segments.length ≤ uri.url.segments.length := by
    rw [popIfEmpty]
    split_ifs
    · rw [length_dropLast]
      omega
    · exact le_rfl
  rw [(parent_eq_some h).2]
  exact (hpop uri.url.popIfEmpty).imp_left fun hlt => hlt.trans_le hpopIfEmpty

theorem ancestorsFrom_of_names_eq_nil (hunclear : uri.isOpaque = false)
    (hposix : uri.inferPathConvention = some .posix) (hnames : uri.url.names = []) (fuel : ℕ) :
    ancestorsFrom fuel uri = [uri] := by
  cases fuel with
  | zero => rfl
  | succ fuel => rw [ancestorsFrom, (parent_posix_eq_none_iff hunclear hposix).2 hnames]

theorem ancestorsFrom_getLast_posix {fuel : ℕ} (hunclear : uri.isOpaque = false)
    (hposix : uri.inferPathConvention = some .posix) (hfuel : uri.url.segments.length ≤ fuel) :
    ∃ root, (ancestorsFrom fuel uri).getLast? = some root ∧ root.isOpaque = false ∧
      root.inferPathConvention = some .posix ∧ root.url.names = [] := by
  induction fuel generalizing uri with
  | zero => exact absurd (length_eq_zero_iff.1 (Nat.le_zero.1 hfuel)) uri.url.segments_ne_nil
  | succ fuel ih =>
    rw [ancestorsFrom]
    cases hparent : uri.parent with
    | none =>
      exact ⟨uri, rfl, hunclear, hposix, (parent_posix_eq_none_iff hunclear hposix).1 hparent⟩
    | some parent =>
      obtain ⟨hunclear', hposix'⟩ := parent_posix hparent hposix
      have hcons : (uri :: ancestorsFrom fuel parent).getLast? =
          (ancestorsFrom fuel parent).getLast? := by
        refine getLast?_cons_of_ne_nil ?_
        cases fuel with
        | zero => exact cons_ne_nil _ _
        | succ fuel =>
          rw [ancestorsFrom]
          cases parent.parent
          all_goals exact cons_ne_nil _ _
      dsimp only
      rw [hcons]
      rcases segments_parent hparent with hlt | hnames
      · exact ih hunclear' hposix' (by omega)
      · rw [ancestorsFrom_of_names_eq_nil hunclear' hposix' hnames]
        exact ⟨parent, rfl, hunclear', hposix', hnames⟩

/-- **The last ancestor of a POSIX path is the path without names.** -/
theorem ancestors_getLast_posix (hunclear : uri.isOpaque = false)
    (hposix : uri.inferPathConvention = some .posix) :
    ∃ root, uri.ancestors.getLast? = some root ∧ root.isOpaque = false ∧
      root.inferPathConvention = some .posix ∧ root.url.names = [] :=
  ancestorsFrom_getLast_posix hunclear hposix le_rfl

/-! ## Plain names -/

variable {segment : Text}

theorem not_mem_plain (h : IsPlain segment) {c : Char} (hc : isPlainChar c = false) :
    c ∉ segment := by
  intro hmem
  rw [all_eq_true.1 h.2.2.2 c hmem] at hc
  cases hc

theorem decode_plain (h : IsPlain segment) : decode (asBytes segment) = asBytes segment := by
  have hencode := encode_plain h.2.2.2
  rw [← hencode, decode_encode rfl]
  exact hencode.symm

theorem mem_of_isWindowsDriveUriSegment {segment : Bytes}
    (h : isWindowsDriveUriSegment segment = true) : 0x3a ∈ segment ∨ 0x25 ∈ segment := by
  match segment with
  | [drive, colon] =>
    simp only [isWindowsDriveUriSegment, Bool.and_eq_true, beq_iff_eq] at h
    left
    rw [h.2]
    exact mem_cons_of_mem _ mem_cons_self
  | [drive, percent, three, last] =>
    simp only [isWindowsDriveUriSegment, Bool.and_eq_true, beq_iff_eq] at h
    right
    rw [h.1.1.2]
    exact mem_cons_of_mem _ mem_cons_self
  | [] => cases h
  | [_] => cases h
  | [_, _, _] => cases h
  | _ :: _ :: _ :: _ :: _ :: _ => cases h

theorem not_drive_plain (h : IsPlain segment) :
    isWindowsDriveUriSegment (asBytes segment) = false := by
  cases hdrive : isWindowsDriveUriSegment (asBytes segment) with
  | false => rfl
  | true =>
    rcases mem_of_isWindowsDriveUriSegment hdrive with hmem | hmem
    · exact absurd ((mem_asBytes_iff (c := ':') (by decide)).1 hmem)
        (not_mem_plain h (by decide))
    · exact absurd ((mem_asBytes_iff (c := '%') (by decide)).1 hmem)
        (not_mem_plain h (by decide))

theorem nul_not_mem_plain (h : IsPlain segment) : 0 ∉ decode (asBytes segment) := by
  rw [decode_plain h]
  exact fun hmem => not_mem_plain h (by decide) ((mem_asBytes_iff (c := '\x00') (by decide)).1 hmem)

theorem normalizeDriveSegment_eq_self {segments : List Bytes}
    (h : (segments.filter (· ≠ [])).head?.any isWindowsDriveUriSegment = false) :
    normalizeDriveSegment segments = segments := by
  induction segments with
  | nil => rfl
  | cons segment rest ih =>
    rw [normalizeDriveSegment]
    split_ifs with hempty
    · rw [ih (by simpa [hempty] using h)]
    · have hdrive : isWindowsDriveUriSegment segment = false := by simpa [hempty] using h
      obtain ⟨drive, name, rfl⟩ := exists_cons_of_ne_nil hempty
      rw [normalizedDrive, hdrive, if_neg Bool.false_ne_true]

/-- A URL without a host and a drive is a POSIX path. -/
theorem tryFrom_posix {url : FileUrl} (hhost : url.host = none)
    (hdrive : url.names.head?.any isWindowsDriveUriSegment = false)
    (hnul : ∀ name ∈ url.names, 0 ∉ decode name) :
    ∃ uri, tryFrom url = some uri ∧ uri.url = url ∧ uri.isOpaque = false ∧
      uri.inferPathConvention = some .posix := by
  have hvalid := FileUrl.validate_of_names hnul
  have hnormal : withNormalizedWindowsDriveLetter (withoutLocalhostAuthority url) = url := by
    rw [withoutLocalhostAuthority, if_neg (by simp [hhost]),
      withNormalizedWindowsDriveLetter, hhost, Option.isSome_none, if_neg Bool.false_ne_true]
    obtain ⟨host, segments, hne, hslash⟩ := url
    cases hhost
    simp only [FileUrl.mk.injEq, true_and]
    exact normalizeDriveSegment_eq_self hdrive
  have hunclear : PathUri.isOpaque ⟨url, hvalid⟩ = false := by
    rw [isOpaque, opaqueFallbackBytes, FileUrl.decodeBadPathUri_eq_none hnul, Option.isSome_none]
  refine ⟨⟨url, hvalid⟩, ?_, rfl, hunclear, (posix_iff hunclear).2 ⟨hhost, hdrive⟩⟩
  rw [tryFrom, dif_pos hvalid]
  exact congrArg some (eq_of_url_eq hnormal)

/-- A POSIX path has a depth unless it is opaque or one of its names hides a slash. -/
theorem lexical_posix_iff (hposix : uri.inferPathConvention = some .posix) :
    uri.lexicalDepth.isSome = true ↔
      uri.isOpaque = false ∧ ∀ name ∈ uri.url.names, 0x2f ∉ decode name := by
  have hhidden : containmentPathSegments uri.url .posix = some uri.url.names ↔
      ∀ name ∈ uri.url.names, 0x2f ∉ decode name := by
    rw [containmentPathSegments]
    split_ifs with hany
    · simp only [any_eq_true, Bool.or_eq_true, beq_iff_eq] at hany
      obtain ⟨name, hname, byte, hbyte, hslash⟩ := hany
      have hbyteEq : byte = 0x2f := hslash.resolve_right (by simp)
      refine iff_of_false nofun fun hall => hall name hname (hbyteEq ▸ hbyte)
    · refine iff_of_true rfl fun name hname hslash => hany ?_
      simp only [any_eq_true, Bool.or_eq_true, beq_iff_eq]
      exact ⟨name, hname, 0x2f, hslash, Or.inl rfl⟩
  rw [← hhidden, Option.isSome_iff_exists]
  constructor
  · rintro ⟨depth, hdepth⟩
    have hlexical := Option.isSome_iff_exists.2 ⟨depth, hdepth⟩
    exact ⟨not_opaque_of_lexical hlexical, containmentPathSegments_of_lexical hlexical hposix⟩
  · rintro ⟨hunclear, hsegments⟩
    exact ⟨_, lexicalDepth_eq_some_iff.2 ⟨hunclear, .posix, hposix, hsegments, rfl⟩⟩

theorem place_posix (hunclear : uri.isOpaque = false)
    (hposix : uri.inferPathConvention = some .posix) :
    uri.place = .inl none :: uri.url.names.map fun name => .inr (decode name) := by
  rw [place, hposix, ((posix_iff hunclear).1 hposix).1]
  rfl

open Option

/-- `/tmp` below a POSIX path. -/
theorem join_slash_tmp (crate : UrlCrate) (hposix : uri.inferPathConvention = some .posix) :
    ∃ tmp, uri.join crate "/tmp".toList = some tmp ∧ tmp.isOpaque = false ∧
      tmp.inferPathConvention = some .posix ∧ tmp.url.names = [ascii "tmp"] := by
  have hplain : IsPlain "tmp".toList := by decide
  obtain ⟨hpushHost, hpushNames⟩ := crate.push_plain (root none) "tmp".toList hplain
  have hnames : (crate.push (root none) "tmp".toList).names = [ascii "tmp"] := hpushNames
  have hdrive : (crate.push (root none) "tmp".toList).names.head?.any
      isWindowsDriveUriSegment = false := by
    rw [hnames, head?_cons, any_some]
    exact not_drive_plain hplain
  obtain ⟨tmp, htmp, hurl, hunclear, hposix'⟩ :=
    tryFrom_posix hpushHost hdrive fun name hname => by
      rw [hnames, mem_singleton] at hname
      rw [hname]
      exact nul_not_mem_plain hplain
  have hnames' : tmp.url.names = [ascii "tmp"] := by rw [hurl, hnames]
  have hhost : tmp.url.host ≠ some [] := by
    simp [((posix_iff hunclear).1 hposix').1]
  have hparse : parsePosixPath crate "/tmp".toList = some tmp := htmp
  have habsolute : fromAbsoluteNativePath crate "/tmp".toList .posix = some tmp := by
    rw [fromAbsoluteNativePath]
    show (parsePosixPath crate "/tmp".toList).bind _ = _
    rw [hparse, bind_some]
    exact if_pos ⟨hhost, hposix'⟩
  refine ⟨tmp, ?_, hunclear, hposix', hnames'⟩
  rw [join, if_neg (by decide), if_neg (by decide), hposix]
  simp only [bind_eq_bind, bind_some, habsolute]

end PathUri

end Paths
