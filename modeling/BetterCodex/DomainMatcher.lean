/-
# Domain patterns and host normalisation

The network proxy's `domain_matcher.rs`: hosts are normalised as text (case,
surrounding blanks, brackets, one port, trailing dots, the scope of an IP
literal), patterns are normalised the same way behind their `*.` or `**.` marker,
expanded to globs over UTF-8 bytes, and matched byte by byte.

Two results carry what follows.  `matchesHost_plain` says that a glob without
wildcards matches exactly the texts equal to it up to ASCII case.
`isMatch_iff` reads a compiled set back as its list: a set matches a host
exactly when the glob of one of the listed patterns does, where the globs of a
pattern are those of its `reading`.
-/
import BetterCodex.Glob
import BetterCodex.IpText
import BetterCodex.Utf8

namespace NetworkProxy

open RustStr IpText Utf8 List

/-! ## Matching bytes -/

/-- The byte `*`. -/
def isStar (c : UInt8) : Bool := c == 0x2a

/-- A pattern byte other than `*` stands for one host byte: `?` for any, every
other one for itself (`eq_ignore_ascii_case`). -/
def acceptsByte (c b : UInt8) : Bool := c == 0x3f || lowercaseByte c == lowercaseByte b

/-- `matches`: the iterative matcher, with the latest star only. -/
def matchesHost (pattern host : List UInt8) : Bool := Glob.globMatch isStar acceptsByte pattern host

/-- The declarative reading of a pattern over bytes: `*` is any run of bytes, `?`
any one byte, every other byte itself ignoring ASCII case. -/
inductive Describes : List UInt8 → List UInt8 → Prop where
  | nil : Describes [] []
  | star {p rest : List UInt8} (run : List UInt8) (h : Describes p rest) :
      Describes (0x2a :: p) (run ++ rest)
  | any {p rest : List UInt8} (b : UInt8) (h : Describes p rest) : Describes (0x3f :: p) (b :: rest)
  | byte {c b : UInt8} {p rest : List UInt8} (hstar : c ≠ 0x2a) (hany : c ≠ 0x3f)
      (hcase : lowercaseByte c = lowercaseByte b) (h : Describes p rest) :
      Describes (c :: p) (b :: rest)

/-- A match by the letters of the glob: a run for `*`, a byte for `?`, else the byte. -/
theorem describes_of_matches {p h : List UInt8} (hm : Glob.Matches isStar acceptsByte p h) :
    Describes p h := by
  induction p generalizing h with
  | nil =>
    obtain rfl := Glob.matches_nil.1 hm
    exact .nil
  | cons c p ih =>
    by_cases hc : isStar c = true
    · obtain ⟨run, rest, rfl, hrest⟩ := (Glob.matches_star hc).1 hm
      obtain rfl : c = 0x2a := by simpa [isStar] using hc
      exact .star run (ih hrest)
    · obtain ⟨b, rest, rfl, hb, hrest⟩ := (Glob.matches_letter (by simpa using hc)).1 hm
      by_cases hany : c = 0x3f
      · subst hany
        exact .any b (ih hrest)
      · refine .byte (by simpa [isStar] using hc) hany ?_ (ih hrest)
        simpa [acceptsByte, hany] using hb

theorem matches_of_describes {p h : List UInt8} (hd : Describes p h) :
    Glob.Matches isStar acceptsByte p h := by
  induction hd with
  | nil => exact Glob.matches_nil.2 rfl
  | star run _ ih => exact (Glob.matches_star rfl).2 ⟨run, _, rfl, ih⟩
  | any b _ ih => exact (Glob.matches_letter rfl).2 ⟨b, _, rfl, rfl, ih⟩
  | byte hstar hany hcase _ ih =>
    refine (Glob.matches_letter (by simpa [isStar] using hstar)).2 ⟨_, _, rfl, ?_, ih⟩
    simp [acceptsByte, hcase]

/-- **The matcher.**  It ends, after at most `host length * (pattern length + 1) +
pattern length` turns, and accepts exactly the hosts that the pattern describes. -/
theorem matchesHost_iff_describes (pattern host : List UInt8) :
    Glob.EndsWithin isStar acceptsByte (host.length * (pattern.length + 1) + pattern.length)
        ⟨pattern, host, none⟩
      ∧ (matchesHost pattern host = true ↔ Describes pattern host) := by
  refine ⟨Glob.endsWithin_work (Glob.aligned_start pattern host) le_rfl le_rfl, ?_⟩
  rw [matchesHost, Glob.globMatch_iff]
  exact ⟨describes_of_matches, matches_of_describes⟩

/-! ## Normalising hosts and patterns -/

/-- The scoped literal `{ip}%{scope}`, when the text before `delimiter` is an
address. -/
def scopedIpLiteral (delimiter host : Text) : Option Text :=
  match splitOnce delimiter host with
  | some (ip, scope) => if (parseIpAddr ip).isSome then some (ip ++ '%' :: scope) else none
  | none => none

def normalizeIpLiteral (host : Text) : Option Text :=
  if (parseIpAddr host).isSome then some host
  else (scopedIpLiteral "%25".toList host).or (scopedIpLiteral ['%'] host)

def normalizeDnsHostOrIpLiteral (host : Text) : Text :=
  let host := trimEndMatches '.' (toAsciiLowercase host)
  (normalizeIpLiteral host).getD host

/-- The text between a leading `[` and the first `]`. -/
def bracketed (host : Text) : Option Text :=
  (stripPrefix ['['] host).bind fun rest => (splitOnce [']'] rest).map Prod.fst

def normalizeHost (host : Text) : Text :=
  let host := trim host
  match bracketed host with
  | some inner => normalizeDnsHostOrIpLiteral inner
  | none =>
    -- a single colon separates a port; more of them are an IPv6 literal
    if host.count ':' = 1 then normalizeDnsHostOrIpLiteral (host.takeWhile (· != ':'))
    else normalizeDnsHostOrIpLiteral host

def unscopedIpLiteral (host : Text) : Option Text :=
  match splitOnce ['%'] host with
  | some (ip, _) => if (parseIpAddr ip).isSome then some ip else none
  | none => none

/-- The marker of a pattern for an apex and its subdomains. -/
def apexMarker : Text := ['*', '*', '.']

/-- The marker of a pattern for the subdomains alone. -/
def subdomainMarker : Text := ['*', '.']

def normalizePattern (pattern : Text) : Text :=
  let pattern := trim pattern
  if pattern = ['*'] then ['*']
  else match stripPrefix apexMarker pattern with
    | some domain => apexMarker ++ normalizeHost domain
    | none => match stripPrefix subdomainMarker pattern with
      | some domain => subdomainMarker ++ normalizeHost domain
      | none => normalizeHost pattern

/-- The glob of the proper subdomains of `domain`: `?*.{domain}`. -/
def subdomainGlob (domain : Text) : Text := '?' :: '*' :: '.' :: domain

def expandDomainPattern (pattern : Text) : List Text :=
  let pattern := trim pattern
  match (stripPrefix apexMarker pattern).or (stripPrefix subdomainMarker pattern) with
  | none => [pattern]
  | some domain =>
    let domain := trim domain
    if domain = [] then [[]]
    else if startsWith pattern apexMarker then [domain, subdomainGlob domain]
    else [subdomainGlob domain]

def isGlobalWildcardDomainPattern (pattern : Text) : Bool :=
  (expandDomainPattern (normalizePattern pattern)).any (· == ['*'])

/-! ## Compiling a pattern list -/

/-- `GlobalWildcard`: whether the list may hold `*`. -/
inductive GlobalWildcard where
  | allow
  | reject
  deriving DecidableEq, Repr

/-- `DomainPatternSet`: the compiled globs. -/
structure DomainPatternSet where
  patterns : List (List UInt8)
  deriving DecidableEq, Repr

/-- The bracket form `[ipv6]` or `[*]`, followed by dots or a port. -/
def bracketsSupported (host : Text) : Bool :=
  match (stripPrefix ['['] host).bind (splitOnce [']']) with
  | none => false
  | some (ip, suffix) =>
    let normalized := normalizeDnsHostOrIpLiteral ip
    let unscoped := normalized.takeWhile (· != '%')
    !ip.any (fun c => c == '[' || c == ']')
      && (normalized == ['*'] || (parseIpv6Addr unscoped).isSome)
      && !suffix.any (fun c => c == '[' || c == ']')
      && (suffix.all (· == '.') || startsWith suffix [':'])

/-- `ensure!`. -/
def ensure (condition : Bool) (message : Text) : Except Text Unit :=
  if condition then .ok () else .error message

/-- The part of a pattern behind its marker. -/
def patternHost (raw : Text) : Text :=
  ((stripPrefix apexMarker raw).or (stripPrefix subdomainMarker raw)).getD raw

/-- The validation of one pattern in `DomainPatternSet::new`. -/
def checkPattern (globalWildcard : GlobalWildcard) (pattern : Text) : Except Text Unit := do
  ensure (!(globalWildcard == .reject && isGlobalWildcardDomainPattern pattern))
    ("unsupported global wildcard domain pattern \"*\"; use exact hosts or scoped wildcards "
      ++ "like *.example.com or **.example.com").toList
  let raw := trim pattern
  ensure (!raw.any (fun c => c == '\x7b' || c == '\x7d' || c == '\\' || c == '/')
      && !raw.any isWhitespace)
    ("unsupported domain pattern syntax: ".toList ++ pattern)
  let host := patternHost raw
  ensure (splitOnce ['*', '*'] host).isNone ("unsupported repeated wildcard: ".toList ++ pattern)
  if host.any (fun c => c == '[' || c == ']') then
    ensure (bracketsSupported host)
      ("brackets are only supported for IPv6 literals or [*]: ".toList ++ pattern)

/-- The loop variables of `DomainPatternSet::new`. -/
structure Compiling where
  seen : List Text
  compiled : List (List UInt8)

/-- One candidate glob: skipped when seen before, refused when empty. -/
def pushCandidate (acc : Compiling) (candidate : Text) : Except Text Compiling :=
  if acc.seen.contains candidate then .ok acc
  else if candidate = [] then .error "domain pattern is empty".toList
  else .ok ⟨acc.seen ++ [candidate], acc.compiled ++ [asBytes candidate]⟩

/-- One pattern of the list. -/
def pushPattern (globalWildcard : GlobalWildcard) (acc : Compiling) (pattern : Text) :
    Except Text Compiling := do
  checkPattern globalWildcard pattern
  (expandDomainPattern (normalizePattern pattern)).foldlM pushCandidate acc

def DomainPatternSet.new (patterns : List Text) (globalWildcard : GlobalWildcard) :
    Except Text DomainPatternSet := do
  let acc ← patterns.foldlM (pushPattern globalWildcard) ⟨[], []⟩
  return ⟨acc.compiled⟩

def DomainPatternSet.isMatch (set : DomainPatternSet) (host : Text) : Bool :=
  set.patterns.any (matchesHost · (asBytes host))

open DomainPatternSet

def compileAllowlist (patterns : List Text) : Except Text DomainPatternSet :=
  new patterns .allow

def compileDenylist (patterns : List Text) : Except Text DomainPatternSet :=
  new patterns .reject

/-! ## Globs without wildcards -/

theorem acceptsByte_self (c : UInt8) : acceptsByte c c = true := by simp [acceptsByte]

theorem matchesHost_self (pattern : List UInt8) : matchesHost pattern pattern = true := by
  rw [matchesHost, Glob.globMatch_iff]
  exact Glob.matches_self fun c _ _ => acceptsByte_self c

/-- A text without wildcards. -/
def Plain (s : Text) : Prop := '*' ∉ s ∧ '?' ∉ s

/-- Without `?` the bytes agree up to ASCII case, one for one. -/
theorem forall₂_acceptsByte_iff {pattern host : List UInt8} (hp : ∀ c ∈ pattern, c ≠ 0x3f) :
    List.Forall₂ (fun c b => acceptsByte c b = true) pattern host ↔
      pattern.map lowercaseByte = host.map lowercaseByte := by
  induction pattern generalizing host with
  | nil => cases host <;> simp
  | cons c pattern ih =>
    have hc : c ≠ 0x3f := hp c (by simp)
    cases host with
    | nil => simp
    | cons b host =>
      rw [forall₂_cons, ih fun d hd => hp d (by simp [hd])]
      simp [acceptsByte, hc]

variable {pattern : Text}

/-- A glob without wildcards matches its own text, up to letter case. -/
theorem matches_plain_iff (hp : Plain pattern) {host : List UInt8} :
    Glob.Matches isStar acceptsByte (asBytes pattern) host ↔
      asBytes (toAsciiLowercase pattern) = host.map lowercaseByte := by
  have hstar : ∀ c ∈ asBytes pattern, isStar c = false := by
    intro c hc
    by_contra hcstar
    have hc' : c = UInt8.ofNat '*'.toNat := by simpa [isStar] using hcstar
    exact hp.1 ((mem_asBytes_iff (by decide)).1 (hc' ▸ hc))
  have hquestion : ∀ c ∈ asBytes pattern, c ≠ 0x3f := by
    intro c hc hcq
    have hc' : c = UInt8.ofNat '?'.toNat := hcq
    exact hp.2 ((mem_asBytes_iff (by decide)).1 (hc' ▸ hc))
  rw [Glob.matches_letters hstar, forall₂_acceptsByte_iff hquestion, map_lowercaseByte_asBytes]

/-- **Exact globs.**  Without wildcards a glob matches the texts that equal it up
to ASCII case, although the match runs over bytes. -/
theorem matchesHost_plain (hp : Plain pattern) (host : Text) :
    matchesHost (asBytes pattern) (asBytes host) = true ↔
      toAsciiLowercase pattern = toAsciiLowercase host := by
  rw [matchesHost, Glob.globMatch_iff, matches_plain_iff hp, map_lowercaseByte_asBytes]
  exact asBytes_injective.eq_iff

/-! ## What a compiled set holds -/

/-- The list entry compiles: it passes the checks, and none of its globs is
empty. -/
def Compilable (globalWildcard : GlobalWildcard) (pattern : Text) : Prop :=
  checkPattern globalWildcard pattern = .ok () ∧
    [] ∉ expandDomainPattern (normalizePattern pattern)

/-- The loop invariant: every glob seen was compiled, and none is empty. -/
def Compiling.Sound (acc : Compiling) : Prop :=
  acc.compiled = acc.seen.map asBytes ∧ [] ∉ acc.seen

variable {acc : Compiling}

/-- Non-empty globs are compiled, each of them once. -/
theorem pushCandidates_ok (hacc : acc.Sound) {candidates : List Text} (hc : [] ∉ candidates) :
    ∃ acc' : Compiling, candidates.foldlM pushCandidate acc = .ok acc' ∧ acc'.Sound ∧
      ∀ c, c ∈ acc'.seen ↔ c ∈ acc.seen ∨ c ∈ candidates := by
  induction candidates generalizing acc with
  | nil => exact ⟨acc, rfl, hacc, by simp⟩
  | cons c candidates ih =>
    have hne : c ≠ [] := fun h => hc (by simp [h])
    have hc' : [] ∉ candidates := fun h => hc (by simp [h])
    rw [foldlM_cons]
    by_cases hseen : c ∈ acc.seen
    · obtain ⟨acc', hrun, hsound, hmem⟩ := ih hacc hc'
      have hstep : pushCandidate acc c = .ok acc := if_pos (contains_iff_mem.2 hseen)
      rw [hstep]
      refine ⟨acc', hrun, hsound, fun d => ?_⟩
      rw [hmem, mem_cons]
      constructor
      · rintro (h | h)
        · exact .inl h
        · exact .inr (.inr h)
      · rintro (h | rfl | h)
        · exact .inl h
        · exact .inl hseen
        · exact .inr h
    · have hstep : pushCandidate acc c = .ok ⟨acc.seen ++ [c], acc.compiled ++ [asBytes c]⟩ := by
        simp [pushCandidate, hseen, hne]
      have hsound : Compiling.Sound ⟨acc.seen ++ [c], acc.compiled ++ [asBytes c]⟩ :=
        ⟨by simp [hacc.1], by simp [hacc.2, hne.symm]⟩
      obtain ⟨acc', hrun, hsound', hmem⟩ := ih hsound hc'
      rw [hstep]
      refine ⟨acc', hrun, hsound', fun d => ?_⟩
      rw [hmem, mem_append, mem_singleton, mem_cons, or_assoc]

theorem pushCandidates_error (hacc : acc.Sound) {candidates : List Text} (hc : [] ∈ candidates) :
    ∃ e, candidates.foldlM pushCandidate acc = .error e := by
  obtain ⟨before, after, rfl, hbefore⟩ := eq_append_cons_of_mem hc
  obtain ⟨acc', hrun, hsound, -⟩ := pushCandidates_ok hacc hbefore
  have hstep : pushCandidate acc' [] = .error "domain pattern is empty".toList := by
    simp [pushCandidate, hsound.2]
  refine ⟨"domain pattern is empty".toList, ?_⟩
  rw [foldlM_append, hrun]
  show (List.foldlM pushCandidate acc' ([] :: after) : Except Text Compiling) = _
  rw [foldlM_cons, hstep]
  rfl

variable {globalWildcard : GlobalWildcard}

theorem pushPattern_ok (hacc : acc.Sound) (hp : Compilable globalWildcard pattern) :
    ∃ acc' : Compiling, pushPattern globalWildcard acc pattern = .ok acc' ∧ acc'.Sound ∧
      ∀ c, c ∈ acc'.seen ↔ c ∈ acc.seen ∨ c ∈ expandDomainPattern (normalizePattern pattern) := by
  have hpush : pushPattern globalWildcard acc pattern =
      (expandDomainPattern (normalizePattern pattern)).foldlM pushCandidate acc := by
    rw [pushPattern, hp.1]
    rfl
  rw [hpush]
  exact pushCandidates_ok hacc hp.2

theorem pushPattern_error (hacc : acc.Sound) (hp : ¬ Compilable globalWildcard pattern) :
    ∃ e, pushPattern globalWildcard acc pattern = .error e := by
  rw [pushPattern]
  cases hcheck : checkPattern globalWildcard pattern with
  | error e => exact ⟨e, rfl⟩
  | ok _ => exact pushCandidates_error hacc (by_contra fun hmem => hp ⟨hcheck, hmem⟩)

variable {patterns : List Text}

/-- Compilable patterns are compiled to the globs they expand to. -/
theorem pushPatterns_ok (hacc : acc.Sound) (hp : ∀ p ∈ patterns, Compilable globalWildcard p) :
    ∃ acc' : Compiling, patterns.foldlM (pushPattern globalWildcard) acc = .ok acc' ∧ acc'.Sound ∧
      ∀ c, c ∈ acc'.seen ↔
        c ∈ acc.seen ∨ ∃ p ∈ patterns, c ∈ expandDomainPattern (normalizePattern p) := by
  induction patterns generalizing acc with
  | nil => exact ⟨acc, rfl, hacc, by simp⟩
  | cons p patterns ih =>
    obtain ⟨acc1, hstep, hsound1, hmem1⟩ := pushPattern_ok hacc (hp p (by simp))
    obtain ⟨acc2, hrun, hsound2, hmem2⟩ := ih hsound1 fun q hq => hp q (by simp [hq])
    refine ⟨acc2, ?_, hsound2, fun c => ?_⟩
    · rw [foldlM_cons, hstep]
      exact hrun
    · simp only [hmem2, hmem1, mem_cons, exists_eq_or_imp, or_assoc]

/-- A pattern that cannot be compiled fails the whole list. -/
theorem pushPatterns_error (hacc : acc.Sound) (hp : ∃ p ∈ patterns, ¬ Compilable globalWildcard p) :
    ∃ e, patterns.foldlM (pushPattern globalWildcard) acc = .error e := by
  induction patterns generalizing acc with
  | nil => simp at hp
  | cons p patterns ih =>
    rw [foldlM_cons]
    by_cases hfirst : Compilable globalWildcard p
    · obtain ⟨acc1, hstep, hsound1, -⟩ := pushPattern_ok hacc hfirst
      obtain ⟨q, hq, hbad⟩ := hp
      have hne : q ≠ p := fun h => hbad (h ▸ hfirst)
      rw [hstep]
      exact ih hsound1 ⟨q, (mem_cons.1 hq).resolve_left hne, hbad⟩
    · obtain ⟨e, he⟩ := pushPattern_error hacc hfirst
      exact ⟨e, by rw [he]; rfl⟩

theorem Compiling.sound_start : Compiling.Sound ⟨[], []⟩ := ⟨rfl, by simp⟩

theorem new_ok (hp : ∀ p ∈ patterns, Compilable globalWildcard p) :
    ∃ set, new patterns globalWildcard = .ok set := by
  obtain ⟨acc, hrun, -, -⟩ := pushPatterns_ok Compiling.sound_start hp
  exact ⟨⟨acc.compiled⟩, by rw [new, hrun]; rfl⟩

theorem compilable_of_new {set : DomainPatternSet} (h : new patterns globalWildcard = .ok set) :
    ∀ p ∈ patterns, Compilable globalWildcard p := by
  by_contra hnot
  push Not at hnot
  obtain ⟨e, he⟩ := pushPatterns_error Compiling.sound_start hnot
  rw [new, he] at h
  cases h

/-- **A compiled set is its list.**  It matches a host exactly when a glob of one
of the listed patterns does. -/
theorem isMatch_iff_expand {set : DomainPatternSet}
    (h : new patterns globalWildcard = .ok set) (host : Text) :
    set.isMatch host = true ↔ ∃ p ∈ patterns, ∃ glob ∈ expandDomainPattern (normalizePattern p),
      matchesHost (asBytes glob) (asBytes host) = true := by
  obtain ⟨acc, hrun, hsound, hmem⟩ := pushPatterns_ok Compiling.sound_start (compilable_of_new h)
  rw [new, hrun] at h
  obtain rfl : ⟨acc.compiled⟩ = set := Except.ok.inj h
  simp only [isMatch, hsound.1, any_map, any_eq_true, Function.comp_apply]
  constructor
  · rintro ⟨glob, hglob, hmatch⟩
    obtain ⟨p, hp, hexpand⟩ := ((hmem glob).1 hglob).resolve_left (by simp)
    exact ⟨p, hp, glob, hexpand, hmatch⟩
  · rintro ⟨p, hp, glob, hexpand, hmatch⟩
    exact ⟨glob, (hmem glob).2 (.inr ⟨p, hp, hexpand⟩), hmatch⟩

/-! ## What normalisation keeps -/

variable {host : Text}

theorem mem_scopedIpLiteral {delimiter literal : Text} (hd : '%' ∈ delimiter)
    (h : scopedIpLiteral delimiter host = some literal) : ∀ c ∈ literal, c ∈ host := by
  simp only [scopedIpLiteral] at h
  split at h
  · rename_i ip scope hcut
    split_ifs at h
    obtain rfl : _ = literal := Option.some.inj h
    rw [splitOnce_eq_some hcut]
    intro c hc
    rcases mem_append.1 hc with hc | hc
    · simp [hc]
    · rcases mem_cons.1 hc with rfl | hc
      · simp [hd]
      · simp [hc]
  · exact absurd h (by simp)

theorem normalizeIpLiteral_cases {literal : Text} (h : normalizeIpLiteral host = some literal) :
    ((parseIpAddr host).isSome ∧ literal = host) ∨
      ∃ delimiter, '%' ∈ delimiter ∧ scopedIpLiteral delimiter host = some literal := by
  simp only [normalizeIpLiteral] at h
  split_ifs at h with hip
  · exact Or.inl ⟨hip, (Option.some.inj h).symm⟩
  · rcases Option.or_eq_some_iff.1 h with h | ⟨-, h⟩
    · exact .inr ⟨_, by decide, h⟩
    · exact .inr ⟨_, by decide, h⟩

theorem trimEndMatches_isPrefix (c : Char) (s : Text) : trimEndMatches c s <+: s :=
  rdropWhile_prefix _ _

variable {c : Char}

theorem mem_normalizeDnsHostOrIpLiteral (hc : c ∈ normalizeDnsHostOrIpLiteral host) :
    c ∈ toAsciiLowercase host := by
  have htrim : ∀ d ∈ trimEndMatches '.' (toAsciiLowercase host), d ∈ toAsciiLowercase host :=
    fun d hd => (trimEndMatches_isPrefix _ _).subset hd
  simp only [normalizeDnsHostOrIpLiteral] at hc
  cases hip : normalizeIpLiteral (trimEndMatches '.' (toAsciiLowercase host)) with
  | none =>
    rw [hip, Option.getD_none] at hc
    exact htrim c hc
  | some literal =>
    rw [hip, Option.getD_some] at hc
    rcases normalizeIpLiteral_cases hip with ⟨-, rfl⟩ | ⟨delimiter, hd, hscoped⟩
    · exact htrim c hc
    · exact htrim c (mem_scopedIpLiteral hd hscoped c hc)

theorem bracketed_eq_some {inner : Text} (h : bracketed host = some inner) :
    ∃ suffix, host = '[' :: inner ++ ']' :: suffix := by
  obtain ⟨rest, hstrip, hmap⟩ := Option.bind_eq_some_iff.1 h
  obtain ⟨⟨inner', suffix⟩, hcut, heq⟩ := Option.map_eq_some_iff.1 hmap
  obtain rfl : inner' = inner := heq
  refine ⟨suffix, ?_⟩
  rw [stripPrefix_eq_some_iff.1 hstrip, splitOnce_eq_some hcut]
  simp

/-- The part of a host text that `normalizeHost` hands to
`normalizeDnsHostOrIpLiteral`. -/
def hostPart (host : Text) : Text :=
  match bracketed host with
  | some inner => inner
  | none => if host.count ':' = 1 then host.takeWhile (· != ':') else host

theorem normalizeHost_eq (host : Text) :
    normalizeHost host = normalizeDnsHostOrIpLiteral (hostPart (trim host)) := by
  simp only [normalizeHost, hostPart]
  cases bracketed (trim host) with
  | some inner => rfl
  | none => exact (apply_ite normalizeDnsHostOrIpLiteral _ _ _).symm

theorem mem_hostPart (hc : c ∈ hostPart host) : c ∈ host := by
  simp only [hostPart] at hc
  cases hb : bracketed host with
  | some inner =>
    rw [hb] at hc
    obtain ⟨suffix, rfl⟩ := bracketed_eq_some hb
    simp only [mem_append, mem_cons]
    exact .inl (.inr hc)
  | none =>
    rw [hb] at hc
    split_ifs at hc
    · refine IsPrefix.subset ?_ hc
      exact takeWhile_prefix _
    · exact hc

theorem mem_normalizeHost (hc : c ∈ normalizeHost host) : c ∈ toAsciiLowercase (trim host) := by
  rw [normalizeHost_eq] at hc
  obtain ⟨d, hd, rfl⟩ := mem_map.1 (mem_normalizeDnsHostOrIpLiteral hc)
  exact mem_map_of_mem (mem_hostPart hd)

end NetworkProxy
