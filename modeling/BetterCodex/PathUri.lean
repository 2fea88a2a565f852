/-
# Path URIs

Executors name their files by `file:` URIs, whatever the operating system of the process that
looks at them.  This file models such a URI and what can be read off its spelling.

A segment is the list of its ASCII bytes.
-/
import BetterCodex.Base64
import BetterCodex.UrlCoding

namespace Paths

open RustStr Utf8 UrlCoding Base64

/-- The bytes of a path or of a part of it. -/
abbrev Bytes := List UInt8

/-- The bytes of a literal. -/
def ascii (s : String) : Bytes := asBytes s.toList

inductive PathConvention
  | posix
  | windows
deriving DecidableEq, Repr

/-! ## URLs -/

/-- A `file:` URL.  `segments` is what `Url::path_segments` yields: the path after its first
slash, split at the slashes. -/
structure FileUrl where
  host : Option Text
  segments : List Bytes
  segments_ne_nil : segments ≠ []
  noSlash : ∀ segment ∈ segments, 0x2f ∉ segment
deriving DecidableEq

namespace FileUrl

variable (url : FileUrl)

/-- The segments that are not empty. -/
def names : List Bytes := url.segments.filter (· ≠ [])

/-- `Url::path`. -/
def path : Bytes := 0x2f :: [0x2f].intercalate url.segments

/-- `PathSegmentsMut::pop_if_empty`. -/
def popIfEmpty : FileUrl :=
  if h : 1 < url.segments.length ∧ url.segments.getLast? = some [] then
    { url with
      segments := url.segments.dropLast
      segments_ne_nil := fun hnil => by
        have hlength := congrArg List.length hnil
        rw [List.length_dropLast, List.length_nil] at hlength
        omega
      noSlash := fun segment hmem => url.noSlash segment (List.mem_of_mem_dropLast hmem) }
  else url

/-- `PathSegmentsMut::pop`. -/
def pop : FileUrl :=
  if h : 1 < url.segments.length then
    { url with
      segments := url.segments.dropLast
      segments_ne_nil := fun hnil => by
        have hlength := congrArg List.length hnil
        rw [List.length_dropLast, List.length_nil] at hlength
        omega
      noSlash := fun segment hmem => url.noSlash segment (List.mem_of_mem_dropLast hmem) }
  else
    { url with
      segments := [[]]
      segments_ne_nil := List.cons_ne_nil _ _
      noSlash := by simp }

/-- `Url::parse("file:///")` with a host. -/
def root (host : Option Text) : FileUrl where
  host := host
  segments := [[]]
  segments_ne_nil := List.cons_ne_nil _ _
  noSlash := by simp

/-- `decode_bad_path_uri`: the native bytes behind `file:///%00/bad/path/<base64>`. -/
def decodeBadPathUri : Option Bytes :=
  match url.host, url.segments with
  | none, [first, second, third, encodedPath] =>
    if first = ascii "%00" ∧ second = ascii "bad" ∧ third = ascii "path" ∧ encodedPath ≠ [] then
      (urlSafe.decode encodedPath).filter fun pathBytes => urlSafe.encode pathBytes = encodedPath
    else none
  | _, _ => none

/-- `validate_file_url`: no decoded null byte, or an opaque path. -/
def validate : Bool :=
  url.decodeBadPathUri.isSome || url.segments.all fun segment => !(decode segment).contains 0

@[simp] theorem host_popIfEmpty : url.popIfEmpty.host = url.host := by
  rw [popIfEmpty]
  split_ifs
  all_goals rfl

@[simp] theorem host_pop : url.pop.host = url.host := by
  rw [pop]
  split_ifs
  all_goals rfl

theorem mem_segments_popIfEmpty {url : FileUrl} {segment : Bytes}
    (h : segment ∈ url.popIfEmpty.segments) : segment ∈ url.segments := by
  rw [popIfEmpty] at h
  split_ifs at h
  · exact List.mem_of_mem_dropLast h
  · exact h

theorem mem_segments_pop {url : FileUrl} {segment : Bytes} (h : segment ∈ url.pop.segments) :
    segment ∈ url.segments ∨ segment = [] := by
  rw [pop] at h
  split_ifs at h
  · exact Or.inl (List.mem_of_mem_dropLast h)
  · exact Or.inr (List.mem_singleton.1 h)

theorem validate_of_segments {url url' : FileUrl} (hvalid : url.validate = true)
    (hunclear : url.decodeBadPathUri = none)
    (h : ∀ segment ∈ url'.segments, segment ∈ url.segments ∨ segment = []) :
    url'.validate = true := by
  rw [validate, hunclear, Option.isSome_none, Bool.false_or, List.all_eq_true] at hvalid
  rw [validate, Bool.or_eq_true, List.all_eq_true]
  right
  intro segment hsegment
  rcases h segment hsegment with hmem | rfl
  · exact hvalid segment hmem
  · rfl

end FileUrl

/-! ## Path URIs -/

structure PathUri where
  url : FileUrl
  valid : url.validate = true

/-- `u8::is_ascii_alphabetic`. -/
def isAsciiAlphabetic (b : UInt8) : Bool := (0x41 ≤ b && b ≤ 0x5a) || (0x61 ≤ b && b ≤ 0x7a)

def isWindowsDriveUriSegment : Bytes → Bool
  | [drive, colon] => isAsciiAlphabetic drive && colon == 0x3a
  | [drive, percent, three, last] =>
    isAsciiAlphabetic drive && percent == 0x25 && three == 0x33 && (last == 0x41 || last == 0x61)
  | _ => false

/-- `infer_opaque_path_convention`: an absolute POSIX path, or an absolute Windows path in
UTF-16LE. -/
def inferOpaquePathConvention (pathBytes : Bytes) : Option PathConvention :=
  if pathBytes.head? = some 0x2f ∧ pathBytes.take 2 ≠ [0x2f, 0] then some .posix
  else if pathBytes.length % 2 ≠ 0 then none
  else
    match pathBytes with
    | low₁ :: high₁ :: low₂ :: high₂ :: _ =>
      let hasDrive := high₁ == 0 && isAsciiAlphabetic low₁ && high₂ == 0 && low₂ == 0x3a
      let isSeparator (low high : UInt8) := high == 0 && (low == 0x5c || low == 0x2f)
      let hasUncPrefix := isSeparator low₁ high₁ && isSeparator low₂ high₂
      if hasDrive || hasUncPrefix then some .windows else none
    | _ => none

/-- `containment_path_segments`: the names of the path, if none hides a native separator. -/
def containmentPathSegments (url : FileUrl) (convention : PathConvention) : Option (List Bytes) :=
  if url.names.any fun segment =>
      (decode segment).any fun byte => byte == 0x2f || (convention == .windows && byte == 0x5c)
  then none
  else some url.names

/-- `decode_uri_path`: the decoded text, or the coded one where the bytes are not UTF-8. -/
def decodeUriPath (path : Bytes) : Bytes := if isUtf8 (decode path) then decode path else path

def eqIgnoreAsciiCase (left right : Bytes) : Bool :=
  left.map lowercaseByte == right.map lowercaseByte

def nativePathSegmentsStartWith (pathSegments baseSegments : List Bytes) :
    PathConvention → Bool
  | .posix =>
    decide (baseSegments.length ≤ pathSegments.length) &&
      (pathSegments.zip baseSegments).all fun (path, base) => decode path == decode base
  | .windows =>
    decide (baseSegments.length ≤ pathSegments.length) &&
      (pathSegments.zip baseSegments).all fun (path, base) =>
        eqIgnoreAsciiCase path base || eqIgnoreAsciiCase (decodeUriPath path) (decodeUriPath base)

namespace PathUri

variable (uri : PathUri)

def opaqueFallbackBytes : Option Bytes := uri.url.decodeBadPathUri

def isOpaque : Bool := uri.opaqueFallbackBytes.isSome

def inferPathConvention : Option PathConvention :=
  match uri.opaqueFallbackBytes with
  | some pathBytes => inferOpaquePathConvention pathBytes
  | none =>
    if uri.url.host.isSome then some .windows
    else if uri.url.names.head?.any isWindowsDriveUriSegment then some .windows
    else some .posix

def windowsIdentityPathBytes : Option Bytes :=
  if uri.inferPathConvention ≠ some .windows || uri.isOpaque ||
      uri.url.segments.any fun segment =>
        (decode segment).any fun byte => byte == 0x2f || byte == 0x5c
  then none
  else some (decode uri.url.path)

/-- `PartialEq for PathUri`. -/
instance : BEq PathUri where
  beq self other :=
    self.url = other.url ||
      match self.windowsIdentityPathBytes, other.windowsIdentityPathBytes with
      | some path, some otherPath =>
        self.url.host = other.url.host && eqIgnoreAsciiCase path otherPath
      | _, _ => false

theorem beq_def (self other : PathUri) : (self == other) = (decide (self.url = other.url) ||
    match self.windowsIdentityPathBytes, other.windowsIdentityPathBytes with
    | some path, some otherPath =>
      self.url.host = other.url.host && eqIgnoreAsciiCase path otherPath
    | _, _ => false) := rfl

def basename : Option Bytes :=
  if uri.isOpaque then none else uri.url.names.getLast?.map decodeUriPath

/-- The names that a path of the convention cannot be without: a drive, or a share. -/
def anchorDepth (convention : PathConvention) : ℕ := if convention = .windows then 1 else 0

def parent : Option PathUri :=
  if h : uri.url.decodeBadPathUri = none then
    uri.inferPathConvention.bind fun convention =>
      if uri.url.names.length ≤ anchorDepth convention then none
      else
        some
          { url := uri.url.popIfEmpty.pop
            valid := FileUrl.validate_of_segments uri.valid h fun _ hmem =>
              (FileUrl.mem_segments_pop hmem).imp_left FileUrl.mem_segments_popIfEmpty }
  else none

/-- `std::iter::successors` of `PathUri::parent`; every parent has fewer segments or none that
has a name. -/
def ancestorsFrom : ℕ → PathUri → List PathUri
  | 0, uri => [uri]
  | fuel + 1, uri =>
    match uri.parent with
    | none => [uri]
    | some parent => uri :: ancestorsFrom fuel parent

def ancestors : List PathUri := ancestorsFrom uri.url.segments.length uri

def startsWith (self base : PathUri) : Bool :=
  if self == base then true
  else if self.isOpaque || base.isOpaque then false
  else if self.url.host ≠ base.url.host then false
  else
    let convention := self.inferPathConvention
    if convention ≠ base.inferPathConvention then false
    else
      let convention := convention.getD .posix
      match containmentPathSegments self.url convention,
        containmentPathSegments base.url convention with
      | some pathSegments, some baseSegments =>
        nativePathSegmentsStartWith pathSegments baseSegments convention
      | _, _ => false

def lexicalDepth : Option ℕ :=
  if uri.isOpaque then none
  else do
    let convention ← uri.inferPathConvention
    (containmentPathSegments uri.url convention).map List.length

def overlaps (self other : PathUri) : Option Bool :=
  if self == other then some true
  else do
    let _ ← self.lexicalDepth
    let _ ← other.lexicalDepth
    return self.startsWith other || other.startsWith self

def decodedPathBytes : Bytes := decode uri.url.path

end PathUri

end Paths
