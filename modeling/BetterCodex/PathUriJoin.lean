/-
# Joining native path text to a path URI

A relative path is appended to a URI segment by segment, an absolute one replaces its path, and
what has no URI becomes an opaque one.
-/
import BetterCodex.PathUri

namespace Paths

open RustStr Utf8 UrlCoding Base64 List

/-! ## The URL crate -/

/-- Letters, digits, `-`, `_` and the dot. -/
def isPlainChar (c : Char) : Bool := c.isAlphanum || c == '-' || c == '_' || c == '.'

/-- A segment that is appended as it is: it is plain and not a dot segment. -/
def IsPlain (segment : Text) : Prop :=
  segment ≠ [] ∧ segment ≠ ".".toList ∧ segment ≠ "..".toList ∧ segment.all isPlainChar = true

instance (segment : Text) : Decidable (IsPlain segment) :=
  inferInstanceAs (Decidable (_ ∧ _ ∧ _ ∧ _))

/-- What is used of the `url` crate beyond reading a URL. -/
structure UrlCrate where
  /-- `Url::set_host`: the host as the URL then spells it. -/
  setHost : Text → Option Text
  /-- `PathSegmentsMut::push`. -/
  push : FileUrl → Text → FileUrl
  /-- The bytes of a component that `Url::from_file_path` does not percent-encode. -/
  keeps : UInt8 → Bool
  push_plain : ∀ url segment, IsPlain segment →
    (push url segment).host = url.host ∧ (push url segment).names = url.names ++ [asBytes segment]
  keeps_percent : keeps 0x25 = false
  keeps_slash : keeps 0x2f = false

namespace FileUrl

/-- A segment after the ones that the path has. -/
def append (url : FileUrl) (segment : Bytes) (h : 0x2f ∉ segment) : FileUrl where
  host := url.host
  segments := if url.segments = [[]] then [segment] else url.segments ++ [segment]
  segments_ne_nil := by
    split_ifs
    · exact cons_ne_nil _ _
    · exact append_ne_nil_of_right_ne_nil _ (cons_ne_nil _ _)
  noSlash := by
    intro s hs
    split_ifs at hs
    · rwa [mem_singleton.1 hs]
    · rcases mem_append.1 hs with hs | hs
      · exact url.noSlash s hs
      · rwa [mem_singleton.1 hs]

theorem names_append (url : FileUrl) {segment : Bytes} (h : 0x2f ∉ segment) (hne : segment ≠ []) :
    (url.append segment h).names = url.names ++ [segment] := by
  rw [names, append, names]
  dsimp only
  split_ifs with hroot
  · rw [hroot]
    simp [hne]
  · rw [filter_append]
    simp [hne]

end FileUrl

/-- The bytes of plain segments. -/
def keepsPlain (b : UInt8) : Bool :=
  isAsciiAlphabetic b || (0x30 ≤ b && b ≤ 0x39) || b == 0x2d || b == 0x5f || b == 0x2e

theorem ascii_of_isPlainChar {c : Char} (h : isPlainChar c = true) : c.toNat ≤ 127 := by
  simp only [isPlainChar, Bool.or_eq_true, beq_iff_eq] at h
  rcases h with ((h | rfl) | rfl) | rfl
  · simp only [Char.isAlphanum, Char.isAlpha, Char.isUpper, Char.isLower, Char.isDigit,
      Bool.or_eq_true, Bool.and_eq_true, decide_eq_true_eq, ge_iff_le, UInt32.le_iff_toNat_le] at h
    have hupper : 'Z'.val.toNat = 90 := rfl
    have hlower : 'z'.val.toNat = 122 := rfl
    have hdigit : '9'.val.toNat = 57 := rfl
    show c.val.toNat ≤ 127
    omega
  all_goals decide

theorem keepsPlain_of_isPlainChar {c : Char} (h : isPlainChar c = true) :
    keepsPlain (UInt8.ofNat c.toNat) = true := by
  have hall : ∀ n : Fin 128, isPlainChar (Char.ofNat n) = true →
      keepsPlain (UInt8.ofNat n) = true := by
    decide
  have hsmall := ascii_of_isPlainChar h
  have hc := hall ⟨c.toNat, by omega⟩
  simp only [Char.ofNat_toNat] at hc
  exact hc h

theorem encode_plain {segment : Text} (h : segment.all isPlainChar = true) :
    encode keepsPlain (asBytes segment) = asBytes segment := by
  induction segment with
  | nil => rfl
  | cons c segment ih =>
    rw [all_cons, Bool.and_eq_true] at h
    rw [asBytes_cons, utf8EncodeChar_ascii (ascii_of_isPlainChar h.1), singleton_append, encode,
      flatMap_cons, ← encode, ih h.2, if_pos (keepsPlain_of_isPlainChar h.1),
      singleton_append]

/-- A URL crate that percent-encodes what is not plain and keeps every host. -/
def UrlCrate.percentEncoding : UrlCrate where
  setHost := some
  push url segment :=
    if segment = ".".toList ∨ segment = "..".toList then url
    else url.append (encode keepsPlain (asBytes segment)) (slash_not_mem_encode rfl _)
  keeps := keepsPlain
  push_plain := by
    rintro url segment ⟨hne, hdot, hdots, hchars⟩
    rw [if_neg (by rintro (h | h) <;> contradiction)]
    refine ⟨rfl, ?_⟩
    have hbytes : asBytes segment ≠ [] := fun h => hne (asBytes_injective h)
    rw [FileUrl.names_append _ _ (encode_ne_nil hbytes), encode_plain hchars]
  keeps_percent := rfl
  keeps_slash := rfl

/-! ## Normal form of a URL -/

def withoutLocalhostAuthority (url : FileUrl) : FileUrl :=
  if url.host = some "localhost".toList then { url with host := none } else url

/-- `u8::to_ascii_uppercase`. -/
def uppercaseByte (b : UInt8) : UInt8 := if 0x61 ≤ b ∧ b ≤ 0x7a then b - 0x20 else b

/-- The first letter of a segment in upper case, if it is a drive. -/
def normalizedDrive : Bytes → Bytes
  | [] => []
  | drive :: rest =>
    if isWindowsDriveUriSegment (drive :: rest) then uppercaseByte drive :: rest else drive :: rest

/-- The first segment that has a name, with a normal drive letter. -/
def normalizeDriveSegment : List Bytes → List Bytes
  | [] => []
  | segment :: rest =>
    if segment = [] then segment :: normalizeDriveSegment rest else normalizedDrive segment :: rest

theorem normalizeDriveSegment_ne_nil {segments : List Bytes} (h : segments ≠ []) :
    normalizeDriveSegment segments ≠ [] := by
  obtain ⟨segment, rest, rfl⟩ := exists_cons_of_ne_nil h
  rw [normalizeDriveSegment]
  split_ifs
  all_goals exact cons_ne_nil _ _

theorem mem_normalizeDriveSegment {segments : List Bytes} {segment : Bytes}
    (h : segment ∈ normalizeDriveSegment segments) :
    segment ∈ segments ∨ ∃ s ∈ segments, segment = normalizedDrive s := by
  induction segments with
  | nil => exact absurd h not_mem_nil
  | cons s rest ih =>
    rw [normalizeDriveSegment] at h
    split_ifs at h
    · rcases mem_cons.1 h with rfl | h
      · exact Or.inl mem_cons_self
      · rcases ih h with h | ⟨t, ht, hseg⟩
        · exact Or.inl (mem_cons_of_mem _ h)
        · exact Or.inr ⟨t, mem_cons_of_mem _ ht, hseg⟩
    · rcases mem_cons.1 h with rfl | h
      · exact Or.inr ⟨s, mem_cons_self, rfl⟩
      · exact Or.inl (mem_cons_of_mem _ h)

theorem drive_alphabetic {drive : UInt8} {rest : Bytes}
    (h : isWindowsDriveUriSegment (drive :: rest) = true) : isAsciiAlphabetic drive = true := by
  match rest with
  | [_] =>
    rw [isWindowsDriveUriSegment, Bool.and_eq_true] at h
    exact h.1
  | [_, _, _] =>
    simp only [isWindowsDriveUriSegment, Bool.and_eq_true] at h
    exact h.1.1.1
  | [] => cases h
  | [_, _] => cases h
  | _ :: _ :: _ :: _ :: _ => cases h

theorem uppercaseByte_drive (b : UInt8) : isAsciiAlphabetic b = true →
    uppercaseByte b ≠ 0x2f ∧ uppercaseByte b ≠ 0x25 ∧ uppercaseByte b ≠ 0 ∧ b ≠ 0x25 := by
  revert b
  exact forall_byte (by decide)

theorem slash_not_mem_normalizedDrive {segment : Bytes} (h : 0x2f ∉ segment) :
    0x2f ∉ normalizedDrive segment := by
  cases segment with
  | nil => exact h
  | cons drive rest =>
    rw [normalizedDrive]
    split_ifs with hdrive
    · intro hmem
      rcases mem_cons.1 hmem with hmem | hmem
      · exact (uppercaseByte_drive drive (drive_alphabetic hdrive)).1 hmem.symm
      · exact h (mem_cons_of_mem _ hmem)
    · exact h

theorem zero_not_mem_decode_normalizedDrive {segment : Bytes} (h : 0 ∉ decode segment) :
    0 ∉ decode (normalizedDrive segment) := by
  cases segment with
  | nil => exact h
  | cons drive rest =>
    rw [normalizedDrive]
    split_ifs with hdrive
    · obtain ⟨-, hpercent, hzero, hdriveNe⟩ := uppercaseByte_drive drive (drive_alphabetic hdrive)
      rw [decode_cons_of_ne hdriveNe] at h
      rw [decode_cons_of_ne hpercent]
      intro hmem
      rcases mem_cons.1 hmem with hmem | hmem
      · exact hzero hmem.symm
      · exact h (mem_cons_of_mem _ hmem)
    · exact h

def withNormalizedWindowsDriveLetter (url : FileUrl) : FileUrl :=
  if url.host.isSome then url
  else
    { url with
      segments := normalizeDriveSegment url.segments
      segments_ne_nil := normalizeDriveSegment_ne_nil url.segments_ne_nil
      noSlash := fun segment hmem => by
        rcases mem_normalizeDriveSegment hmem with hmem | ⟨s, hs, rfl⟩
        · exact url.noSlash segment hmem
        · exact slash_not_mem_normalizedDrive (url.noSlash s hs) }

/-- The normal form of a valid URL is valid. -/
theorem validate_normalized {url : FileUrl} (h : url.validate = true) :
    (withNormalizedWindowsDriveLetter (withoutLocalhostAuthority url)).validate = true := by
  cases hunclear : url.decodeBadPathUri with
  | none =>
    rw [FileUrl.validate, hunclear, Option.isSome_none, Bool.false_or, all_eq_true] at h
    have hnul : ∀ segment ∈ url.segments, 0 ∉ decode segment := by
      intro segment hsegment
      simpa using h segment hsegment
    have hsegments : (withoutLocalhostAuthority url).segments = url.segments := by
      rw [withoutLocalhostAuthority]
      split_ifs
      all_goals rfl
    rw [FileUrl.validate, Bool.or_eq_true, all_eq_true]
    right
    intro segment hsegment
    have hzero : 0 ∉ decode segment := by
      rw [withNormalizedWindowsDriveLetter] at hsegment
      split_ifs at hsegment
      · exact hnul segment (hsegments ▸ hsegment)
      · rcases mem_normalizeDriveSegment hsegment with hmem | ⟨s, hs, rfl⟩
        · exact hnul segment (hsegments ▸ hmem)
        · exact zero_not_mem_decode_normalizedDrive (hnul s (hsegments ▸ hs))
    simpa using hzero
  | some bytes =>
    -- an opaque path has no host, and its first segment is no drive
    obtain ⟨host, segments, hne, hslash⟩ := url
    rw [FileUrl.decodeBadPathUri] at hunclear
    split at hunclear
    · rename_i first second third encodedPath hhost hsegments
      subst hhost hsegments
      split_ifs at hunclear with hfront
      obtain ⟨rfl, -⟩ := hfront
      exact h
    · cases hunclear

namespace PathUri

/-- `TryFrom<Url>`. -/
def tryFrom (url : FileUrl) : Option PathUri :=
  if h : url.validate = true then
    some
      { url := withNormalizedWindowsDriveLetter (withoutLocalhostAuthority url)
        valid := validate_normalized h }
  else none

/-! ## Opaque paths -/

/-- `file:///%00/bad/path/<base64>`. -/
def badPathUrl (bytes : Bytes) : FileUrl where
  host := none
  segments := [ascii "%00", ascii "bad", ascii "path", urlSafe.encode bytes]
  segments_ne_nil := cons_ne_nil _ _
  noSlash := by
    intro segment hmem
    simp only [mem_cons, not_mem_nil, or_false] at hmem
    rcases hmem with rfl | rfl | rfl | rfl
    · decide
    · decide
    · decide
    · intro hslash
      rcases Alphabet.mem_encode hslash with hpad | hletter
      · cases hpad
      · revert hletter
        decide +kernel

theorem decodeBadPathUri_badPathUrl {bytes : Bytes} (h : bytes ≠ []) :
    (badPathUrl bytes).decodeBadPathUri = some bytes := by
  rw [FileUrl.decodeBadPathUri, badPathUrl]
  dsimp only
  rw [if_pos ⟨rfl, rfl, rfl, Alphabet.encode_ne_nil h⟩, Alphabet.decode_encode]
  exact Option.filter_some_pos (decide_eq_true rfl)

def fromOpaquePathBytes (bytes : Bytes) (h : bytes ≠ []) : PathUri where
  url := badPathUrl bytes
  valid := by rw [FileUrl.validate, decodeBadPathUri_badPathUrl h, Option.isSome_some, Bool.true_or]

/-- `from_opaque_path_bytes` of the bytes of a path, which has some. -/
def opaquePath (bytes : Bytes) : Option PathUri :=
  if h : bytes = [] then none else some (fromOpaquePathBytes bytes h)

/-- `str::encode_utf16` as little-endian bytes. -/
def utf16Bytes (path : Text) : Bytes :=
  path.flatMap fun c =>
    let units :=
      if c.toNat < 0x10000 then [c.toNat]
      else [0xd800 + (c.toNat - 0x10000) / 0x400, 0xdc00 + (c.toNat - 0x10000) % 0x400]
    units.flatMap fun unit => [UInt8.ofNat unit, UInt8.ofNat (unit / 256)]

def windowsOpaquePathUri (path : Text) : Option PathUri := opaquePath (utf16Bytes path)

/-! ## Absolute native paths -/

variable (crate : UrlCrate)

def pathUriFromSegments (convention : PathConvention) (host : Option Text)
    (segments : List Text) : Option PathUri := do
  let urlHost ← match host with
    | none => some none
    | some host => (crate.setHost host).map some
  let (normalized, hasTrailingSeparator) :=
    segments.foldl
      (fun (normalized, _) segment =>
        if segment = [] then (normalized, true)
        else if segment = ".".toList then (normalized, false)
        else if segment = "..".toList then
          (if anchorDepth convention < normalized.length then normalized.dropLast else normalized,
            false)
        else (normalized ++ [segment], false))
      (([] : List Text), false)
  let normalized :=
    if hasTrailingSeparator ∨
        (convention = .windows ∧ host = none ∧ normalized.length = anchorDepth convention)
    then normalized ++ [[]]
    else normalized
  tryFrom (normalized.foldl crate.push (FileUrl.root urlHost))

def parsePosixPath (path : Text) : Option PathUri :=
  match path with
  | '/' :: rest =>
    if '\x00' ∈ rest then opaquePath (asBytes path)
    else pathUriFromSegments crate .posix none (rest.splitOn '/')
  | _ => none

/-- `is_windows_separator_char`. -/
def isWindowsSeparator (c : Char) : Bool := c == '\\' || c == '/'

def isWindowsDriveAbsolutePath : Text → Bool
  | drive :: ':' :: separator :: _ => drive.isAlpha && isWindowsSeparator separator
  | _ => false

def normalizeWindowsDevicePath (path : Text) : Option Text :=
  match stripPrefix "\\\\?\\UNC\\".toList path with
  | some unc => some ("\\\\".toList ++ unc)
  | none =>
    match stripPrefix "\\\\.\\UNC\\".toList path with
    | some unc => some ("\\\\".toList ++ unc)
    | none =>
      match (stripPrefix "\\\\?\\".toList path).filter isWindowsDriveAbsolutePath with
      | some path => some path
      | none => (stripPrefix "\\\\.\\".toList path).filter isWindowsDriveAbsolutePath

/-- `.` and `..` name no host and no share. -/
def isDotName (name : Text) : Bool := name == ".".toList || name == "..".toList

def parseUnnormalizedWindowsPath (path : Text) : Option PathUri :=
  let usesNamespace : Bool :=
    match path with
    | first :: second :: name :: separator :: _ =>
      isWindowsSeparator first && isWindowsSeparator second && isWindowsSeparator separator &&
        (name == '.' || name == '?')
    | _ => false
  if usesNamespace ∨ '\x00' ∈ path then windowsOpaquePathUri path
  else if isWindowsDriveAbsolutePath path then
    pathUriFromSegments crate .windows none
      (path.take 2 :: (path.drop 3).splitOnP isWindowsSeparator)
  else if 2 ≤ path.length ∧ (path.take 2).all isWindowsSeparator then
    match (path.drop 2).splitOnP isWindowsSeparator with
    | host :: share :: components =>
      if host = [] ∨ share = [] then none
      else if isDotName host || isDotName share then windowsOpaquePathUri path
      else
        ((pathUriFromSegments crate .windows (some host) (share :: components)).filter fun uri =>
          uri.url.host.any fun parsed => toAsciiLowercase parsed == toAsciiLowercase host).orElse
          fun _ => windowsOpaquePathUri path
    | _ => none
  else none

def parseWindowsPath (path : Text) : Option PathUri :=
  match normalizeWindowsDevicePath path with
  | some normalizedPath =>
    let isUnc := "\\\\".toList.isPrefixOf normalizedPath
    let malformedUnc :=
      isUnc &&
        match (normalizedPath.drop 2).splitOnP isWindowsSeparator with
        | host :: share :: _ => host == [] || isDotName host || share == [] || isDotName share
        | _ => true
    if malformedUnc then windowsOpaquePathUri path
    else
      ((parseUnnormalizedWindowsPath crate normalizedPath).filter fun uri =>
        uri.inferPathConvention == some .windows && !uri.isOpaque &&
          (!isUnc || uri.url.host.any fun host => host ≠ [])).orElse
        fun _ => windowsOpaquePathUri path
  | none => parseUnnormalizedWindowsPath crate path

def fromAbsoluteNativePath (path : Text) (convention : PathConvention) :
    Option PathUri := do
  let uri ← match convention with
    | .posix => parsePosixPath crate path
    | .windows => parseWindowsPath crate path
  if uri.url.host ≠ some [] ∧ uri.inferPathConvention = some convention then some uri
  else
    match convention with
    | .posix => opaquePath (asBytes path)
    | .windows => windowsOpaquePathUri path

/-! ## Joins -/

/-- The component loop of `PathUri::join`: the URL and its depth after one component. -/
def joinComponent (convention : PathConvention) (state : FileUrl × ℕ)
    (component : Text) : FileUrl × ℕ :=
  if component = [] ∨ component = ".".toList then state
  else if component = "..".toList then
    if anchorDepth convention < state.2 then (state.1.pop, state.2 - 1) else state
  else (crate.push state.1 component, state.2 + 1)

/-- The segments that a rooted Windows path takes away. -/
def popToAnchor (convention : PathConvention) : ℕ → FileUrl → FileUrl × ℕ
  | 0, url => (url, 0)
  | depth + 1, url =>
    if anchorDepth convention < depth + 1 then popToAnchor convention depth url.pop
    else (url, depth + 1)

/-- The path text of `PathUri::join` without a drive that is the one of the base. -/
def withoutSameDrive (uri : PathUri) (convention : PathConvention) (path : Text) : Option Text :=
  match convention, path with
  | .windows, drive :: ':' :: rest =>
    if drive.isAlpha then
      let sameDrive := uri.url.names.head?.any fun segment =>
        isWindowsDriveUriSegment segment &&
          segment.head?.map lowercaseByte == some (lowercaseByte (UInt8.ofNat drive.toNat))
      if sameDrive then some rest else none
    else some path
  | _, _ => some path

def join (uri : PathUri) (path : Text) : Option PathUri :=
  if '\x00' ∈ path then none
  else if path = [] then some uri
  else do
    let convention ← uri.inferPathConvention
    match fromAbsoluteNativePath crate path convention with
    | some absolute => some absolute
    | none =>
      let path ← withoutSameDrive uri convention path
      if uri.isOpaque then none
      else
        let windowsRootRelative : Bool :=
          match convention, path with
          | .windows, first :: rest =>
            isWindowsSeparator first && !rest.head?.any isWindowsSeparator
          | _, _ => false
        let start := (uri.url.popIfEmpty, uri.url.names.length)
        let start :=
          if windowsRootRelative then popToAnchor convention start.2 start.1 else start
        let components :=
          match convention with
          | .posix => path.splitOn '/'
          | .windows => path.splitOnP isWindowsSeparator
        tryFrom (components.foldl (joinComponent crate convention) start).1

def joinDescendant (uri : PathUri) (path : Text) : Option PathUri := do
  let descendant ← uri.join crate path
  let windows : Bool := uri.inferPathConvention = some .windows
  if path.head? = some '/' ∨
      (windows ∧ (path.head? = some '\\' ∨
        (path.splitOnP isWindowsSeparator).any fun segment => segment.contains ':')) ∨
      descendant.startsWith uri = false
  then none
  else some descendant

end PathUri

end Paths
