/-
# The two readings of a domain pattern

A domain pattern of the network proxy is read twice.  The validation of managed
constraints (`policy.rs`) parses it to a `DomainPattern` whose domain part went
through a URL host parser, and compares such patterns with `allows`.  The
matcher (`domain_matcher.rs`) normalises the same text in its own way and
compiles it to globs.
-/
import BetterCodex.DomainMatcher

namespace NetworkProxy

open RustStr IpText Utf8 List

/-! ## The validator's reading -/

inductive DomainPattern where
  | apexAndSubdomains (domain : Text)
  | subdomainsOnly (domain : Text)
  | exact (domain : Text)
  deriving DecidableEq, Repr

/-- `parse_domain_for_constraints`.  `urlHost` is the host parser of the `url`
crate followed by `to_string`. -/
def parseDomainForConstraints (urlHost : Text → Option Text) (domain : Text) : Text :=
  let domain := trimEndMatches '.' (trim domain)
  if domain = [] then []
  else
    let host := if startsWith domain ['['] && endsWith domain [']'] then domain.tail.dropLast
      else domain
    if '*' ∈ host ∨ '?' ∈ host ∨ '%' ∈ host then domain
    else (urlHost host).getD []

def DomainPattern.parseForConstraints (urlHost : Text → Option Text) (input : Text) :
    DomainPattern :=
  let input := trim input
  if input = [] then .exact []
  else match stripPrefix apexMarker input with
    | some domain => .apexAndSubdomains (parseDomainForConstraints urlHost domain)
    | none => match stripPrefix subdomainMarker input with
      | some domain => .subdomainsOnly (parseDomainForConstraints urlHost domain)
      | none => .exact (parseDomainForConstraints urlHost input)

def normalizeDomain (domain : Text) : Text := toAsciiLowercase (trimEndMatches '.' domain)

def domainEq (left right : Text) : Bool := normalizeDomain left == normalizeDomain right

def isSubdomainOrEqual (child parent : Text) : Bool :=
  let child := normalizeDomain child
  let parent := normalizeDomain parent
  child == parent || endsWith child ('.' :: parent)

def isStrictSubdomain (child parent : Text) : Bool :=
  let child := normalizeDomain child
  let parent := normalizeDomain parent
  child != parent && endsWith child ('.' :: parent)

def DomainPattern.allows : DomainPattern → DomainPattern → Bool
  | .exact domain, .exact candidate => domainEq candidate domain
  | .exact _, _ => false
  | .subdomainsOnly domain, .exact candidate => isStrictSubdomain candidate domain
  | .subdomainsOnly domain, .subdomainsOnly candidate => isSubdomainOrEqual candidate domain
  | .subdomainsOnly domain, .apexAndSubdomains candidate => isStrictSubdomain candidate domain
  | .apexAndSubdomains domain, .exact candidate => isSubdomainOrEqual candidate domain
  | .apexAndSubdomains domain, .subdomainsOnly candidate => isSubdomainOrEqual candidate domain
  | .apexAndSubdomains domain, .apexAndSubdomains candidate => isSubdomainOrEqual candidate domain

/-! ## The matcher's reading -/

/-- The pattern that the matcher sees: the marker of the trimmed text, and the
normalised host behind it. -/
def DomainPattern.reading (pattern : Text) : DomainPattern :=
  let pattern := trim pattern
  match stripPrefix apexMarker pattern with
  | some domain => .apexAndSubdomains (normalizeHost domain)
  | none => match stripPrefix subdomainMarker pattern with
    | some domain => .subdomainsOnly (normalizeHost domain)
    | none => .exact (normalizeHost pattern)

/-- The globs that a pattern stands for. -/
def DomainPattern.globs : DomainPattern → List Text
  | .apexAndSubdomains domain => [domain, subdomainGlob domain]
  | .subdomainsOnly domain => [subdomainGlob domain]
  | .exact domain => [domain]

/-- The hosts that a pattern matches. -/
def DomainPattern.Hits (pattern : DomainPattern) (host : Text) : Prop :=
  ∃ glob ∈ pattern.globs, matchesHost (asBytes glob) (asBytes host) = true

instance (pattern : DomainPattern) (host : Text) : Decidable (pattern.Hits host) :=
  inferInstanceAs (Decidable
    (∃ glob ∈ pattern.globs, matchesHost (asBytes glob) (asBytes host) = true))

/-! ## The checks of a list entry -/

theorem ensure_ok_iff {condition : Bool} {message : Text} :
    ensure condition message = .ok () ↔ condition = true := by
  cases condition <;> simp [ensure]

theorem bind_ok_iff {ε α : Type} {x : Except ε Unit} {f : Unit → Except ε α} {a : α} :
    x.bind f = .ok a ↔ x = .ok () ∧ f () = .ok a := by
  cases x with
  | error e => simp [Except.bind]
  | ok u => simp [Except.bind]

variable {globalWildcard : GlobalWildcard} {pattern : Text}

/-- The checks of a pattern, in one condition. -/
theorem checkPattern_ok_iff :
    checkPattern globalWildcard pattern = .ok () ↔
      (globalWildcard = .reject → isGlobalWildcardDomainPattern pattern = false) ∧
      (∀ c ∈ trim pattern, c ≠ '\x7b' ∧ c ≠ '\x7d' ∧ c ≠ '\\' ∧ c ≠ '/') ∧
      (∀ c ∈ trim pattern, isWhitespace c = false) ∧
      splitOnce ['*', '*'] (patternHost (trim pattern)) = none ∧
      (('[' ∈ patternHost (trim pattern) ∨ ']' ∈ patternHost (trim pattern)) →
        bracketsSupported (patternHost (trim pattern)) = true) := by
  simp only [checkPattern, bind, bind_ok_iff, ensure_ok_iff]
  refine and_congr ?_ ((and_congr ?_ (and_congr ?_ ?_)).trans and_assoc)
  · simp [imp_iff_not_or]
  · simp [and_assoc]
  · simp
  · split_ifs with hbracket
    · have hmem : '[' ∈ patternHost (trim pattern) ∨ ']' ∈ patternHost (trim pattern) := by
        obtain ⟨c, hc, hcb⟩ := any_eq_true.1 hbracket
        rcases Bool.or_eq_true_iff.1 hcb with h | h
        · exact .inl (eq_of_beq h ▸ hc)
        · exact .inr (eq_of_beq h ▸ hc)
      rw [ensure_ok_iff]
      exact ⟨fun h _ => h, fun h => h hmem⟩
    · refine ⟨fun _ hmem => absurd ?_ hbracket, fun _ => rfl⟩
      rw [any_eq_true]
      rcases hmem with hmem | hmem
      · exact ⟨_, hmem, by simp⟩
      · exact ⟨_, hmem, by simp⟩

/-! ## Markers survive normalisation -/

theorem caseless_star : Caseless '*' := caseless_of_not_letter (by decide) (by decide)

theorem caseless_dot : Caseless '.' := caseless_of_not_letter (by decide) (by decide)

theorem not_isIpChar_star : ¬ IsIpChar '*' := by
  simp [IsIpChar]
  decide

variable {s : Text}

open Option

theorem not_star_prefix_of_parse (h : (parseIpAddr s).isSome) (rest p : Text) :
    ¬ '*' :: p <+: s ++ rest := by
  obtain ⟨ip, hip⟩ := isSome_iff_exists.1 h
  intro hprefix
  cases s with
  | nil => exact absurd h (by decide)
  | cons c s =>
    have hc : '*' = c := (cons_prefix_cons.1 hprefix).1
    have hchar := parseIpAddr_chars hip c (by simp)
    exact not_isIpChar_star (hc ▸ hchar)

variable {host p : Text}

/-- A star at the front of a normalised host was there before. -/
theorem star_prefix_normalizeDns (hp : ∀ c ∈ p, Caseless c)
    (h : '*' :: p <+: normalizeDnsHostOrIpLiteral host) : '*' :: p <+: host := by
  have hall : ∀ c ∈ '*' :: p, Caseless c := by
    intro c hc
    rcases mem_cons.1 hc with rfl | hc
    · exact caseless_star
    · exact hp c hc
  have htrim : '*' :: p <+: trimEndMatches '.' (toAsciiLowercase host) → '*' :: p <+: host :=
    fun hpre => isPrefix_of_isPrefix_lowercase hall (hpre.trans (trimEndMatches_isPrefix _ _))
  simp only [normalizeDnsHostOrIpLiteral] at h
  cases hip : normalizeIpLiteral (trimEndMatches '.' (toAsciiLowercase host)) with
  | none =>
    rw [hip, getD_none] at h
    exact htrim h
  | some literal =>
    rw [hip, getD_some] at h
    rcases normalizeIpLiteral_cases hip with ⟨-, rfl⟩ | ⟨delimiter, -, hscoped⟩
    · exact htrim h
    · simp only [scopedIpLiteral] at hscoped
      split at hscoped
      · split_ifs at hscoped with hparse
        rw [← some.inj hscoped] at h
        exact absurd h (not_star_prefix_of_parse hparse _ _)
      · exact absurd hscoped (by simp)

/-- Supported brackets hold a star or an IPv6 address. -/
theorem normalizeHost_of_brackets (hblank : ∀ c ∈ host, isWhitespace c = false)
    (h : bracketsSupported host = true) :
    normalizeHost host = ['*'] ∨
      (parseIpv6Addr ((normalizeHost host).takeWhile (· != '%'))).isSome = true := by
  simp only [bracketsSupported] at h
  split at h
  · exact absurd h (by simp)
  · rename_i ip suffix hcut
    obtain ⟨rest, hstrip, hsplit⟩ := bind_eq_some_iff.1 hcut
    have hbracketed : bracketed host = some ip := by simp [bracketed, hstrip, hsplit]
    have hnorm : normalizeHost host = normalizeDnsHostOrIpLiteral ip := by
      rw [normalizeHost_eq, trim_eq_self_of_forall hblank, hostPart, hbracketed]
    simp only [Bool.and_eq_true, Bool.or_eq_true, beq_iff_eq] at h
    rw [hnorm]
    exact h.1.1.2

/-- Normalisation brings no wildcard marker to the front of a host. -/
theorem not_marker_normalizeHost (hcheck : checkPattern globalWildcard pattern = .ok ())
    (hapex : stripPrefix apexMarker (trim pattern) = none)
    (hsub : stripPrefix subdomainMarker (trim pattern) = none)
    (hp : p = apexMarker ∨ p = subdomainMarker) : ¬ p <+: normalizeHost (trim pattern) := by
  obtain ⟨-, -, hblank, -, hbrackets⟩ := checkPattern_ok_iff.1 hcheck
  have hhost : patternHost (trim pattern) = trim pattern := by simp [patternHost, hapex, hsub]
  rw [hhost] at hbrackets
  obtain ⟨q, hpq, hq, hne⟩ : ∃ q, p = '*' :: q ∧ (∀ c ∈ q, Caseless c) ∧ q ≠ [] := by
    rcases hp with rfl | rfl
    · exact ⟨['*', '.'], rfl, by simp [caseless_star, caseless_dot], by simp⟩
    · exact ⟨['.'], rfl, by simp [caseless_dot], by simp⟩
  have hraw : ¬ p <+: trim pattern := by
    rintro ⟨rest, hrest⟩
    rcases hp with rfl | rfl
    · rw [stripPrefix_eq_some_iff.2 hrest.symm] at hapex
      cases hapex
    · rw [stripPrefix_eq_some_iff.2 hrest.symm] at hsub
      cases hsub
  intro hprefix
  by_cases hmem : '[' ∈ trim pattern ∨ ']' ∈ trim pattern
  · -- brackets leave `*` alone or an IPv6 literal
    rcases normalizeHost_of_brackets hblank (hbrackets hmem) with hstar | hip
    · rw [hstar, hpq] at hprefix
      exact hne (prefix_nil.1 (cons_prefix_cons.1 hprefix).2)
    · obtain ⟨rest, hrest⟩ := hprefix
      obtain ⟨ip, hip⟩ := isSome_iff_exists.1 hip
      have hstar : '*' ∈ (normalizeHost (trim pattern)).takeWhile (· != '%') := by
        rw [← hrest, hpq]
        simp
      exact absurd (parseIpv6Addr_chars hip '*' hstar) not_isIpChar_star
  · have hnone : bracketed (trim pattern) = none := by
      rw [eq_none_iff_forall_ne_some]
      intro inner hinner
      obtain ⟨suffix, heq⟩ := bracketed_eq_some hinner
      exact hmem (.inl (by simp [heq]))
    have hpart : hostPart (trim pattern) <+: trim pattern := by
      rw [hostPart, hnone]
      dsimp only
      split_ifs
      · exact takeWhile_prefix _
      · exact prefix_rfl
    rw [normalizeHost_eq, trim_eq_self_of_forall hblank, hpq] at hprefix
    have := star_prefix_normalizeDns hq hprefix
    exact hraw (hpq ▸ this.trans hpart)

/-! ### Expansion -/

theorem blank_free_append (hp : ∀ c ∈ p, isWhitespace c = false)
    (hs : ∀ c ∈ s, isWhitespace c = false) : ∀ c ∈ p ++ s, isWhitespace c = false := by
  intro c hc
  rcases mem_append.1 hc with hc | hc
  · exact hp c hc
  · exact hs c hc

theorem blank_free_apexMarker : ∀ c ∈ apexMarker, isWhitespace c = false :=
  forall_mem_cons.2 ⟨rfl, forall_mem_cons.2 ⟨rfl, forall_mem_singleton.2 rfl⟩⟩

theorem blank_free_subdomainMarker : ∀ c ∈ subdomainMarker, isWhitespace c = false :=
  forall_mem_cons.2 ⟨rfl, forall_mem_singleton.2 rfl⟩

theorem stripPrefix_apex_of_sub (domain : Text) :
    stripPrefix apexMarker (subdomainMarker ++ domain) = none := by
  rw [eq_none_iff_forall_ne_some]
  intro rest hrest
  have := stripPrefix_eq_some_iff.1 hrest
  simp [apexMarker, subdomainMarker] at this

theorem expandDomainPattern_apex {domain : Text} (hblank : ∀ c ∈ domain, isWhitespace c = false) :
    expandDomainPattern (apexMarker ++ domain) =
      if domain = [] then [[]] else [domain, subdomainGlob domain] := by
  have htrim := trim_eq_self_of_forall (blank_free_append blank_free_apexMarker hblank)
  simp only [expandDomainPattern, htrim, stripPrefix_append, some_or,
    trim_eq_self_of_forall hblank, startsWith_eq_isSome, isSome_some, if_true]

theorem expandDomainPattern_sub {domain : Text} (hblank : ∀ c ∈ domain, isWhitespace c = false) :
    expandDomainPattern (subdomainMarker ++ domain) =
      if domain = [] then [[]] else [subdomainGlob domain] := by
  have htrim := trim_eq_self_of_forall (blank_free_append blank_free_subdomainMarker hblank)
  simp only [expandDomainPattern, htrim, stripPrefix_apex_of_sub, stripPrefix_append,
    none_or, trim_eq_self_of_forall hblank, startsWith_eq_isSome, isSome_none,
    Bool.false_eq_true, if_false]

theorem expandDomainPattern_exact (hblank : ∀ c ∈ pattern, isWhitespace c = false)
    (hapex : ¬ apexMarker <+: pattern) (hsub : ¬ subdomainMarker <+: pattern) :
    expandDomainPattern pattern = [pattern] := by
  have hnone : ∀ p : Text, ¬ p <+: pattern → stripPrefix p pattern = none := by
    intro p hp
    rw [eq_none_iff_forall_ne_some]
    intro rest hrest
    exact hp ⟨rest, (stripPrefix_eq_some_iff.1 hrest).symm⟩
  simp only [expandDomainPattern, trim_eq_self_of_forall hblank, hnone _ hapex, hnone _ hsub,
    none_or]

theorem blank_free_normalizeHost (h : ∀ c ∈ host, isWhitespace c = false) :
    ∀ c ∈ normalizeHost host, isWhitespace c = false := by
  intro c hc
  obtain ⟨d, hd, rfl⟩ := mem_map.1 (mem_normalizeHost hc)
  rw [isWhitespace_toLower]
  exact h d (trim_subset host d hd)

open DomainPattern

/-- **Compilation follows the reading.**  The globs of an entry that passes the
checks are those of its reading. -/
theorem expandDomainPattern_normalizePattern (hp : Compilable globalWildcard pattern) :
    expandDomainPattern (normalizePattern pattern) = (reading pattern).globs := by
  obtain ⟨-, -, hblank, -, -⟩ := checkPattern_ok_iff.1 hp.1
  have hempty := hp.2
  by_cases hstar : trim pattern = ['*']
  · have hreading : reading pattern = .exact ['*'] := by
      simp only [reading, hstar]
      decide
    have hexpand : normalizePattern pattern = ['*'] := by simp [normalizePattern, hstar]
    rw [hreading, hexpand]
    decide
  simp only [normalizePattern, hstar, if_false] at hempty ⊢
  simp only [reading]
  cases hapex : stripPrefix apexMarker (trim pattern) with
  | some domain =>
    have hdomain : ∀ c ∈ normalizeHost domain, isWhitespace c = false := by
      refine blank_free_normalizeHost fun c hc => hblank c ?_
      rw [stripPrefix_eq_some_iff.1 hapex]
      simp [hc]
    simp only [hapex, expandDomainPattern_apex hdomain] at hempty ⊢
    split_ifs at hempty ⊢
    · exact absurd hempty (by simp)
    · rfl
  | none =>
    cases hsub : stripPrefix subdomainMarker (trim pattern) with
    | some domain =>
      have hdomain : ∀ c ∈ normalizeHost domain, isWhitespace c = false := by
        refine blank_free_normalizeHost fun c hc => hblank c ?_
        rw [stripPrefix_eq_some_iff.1 hsub]
        simp [hc]
      simp only [hapex, hsub, expandDomainPattern_sub hdomain] at hempty ⊢
      split_ifs at hempty ⊢
      · exact absurd hempty (by simp)
      · rfl
    | none =>
      exact expandDomainPattern_exact (blank_free_normalizeHost hblank)
        (not_marker_normalizeHost hp.1 hapex hsub (.inl rfl))
        (not_marker_normalizeHost hp.1 hapex hsub (.inr rfl))

/-- **A compiled set is its list, as the matcher reads it.** -/
theorem isMatch_iff {patterns : List Text} {set : DomainPatternSet}
    (h : DomainPatternSet.new patterns globalWildcard = .ok set) (host : Text) :
    set.isMatch host = true ↔ ∃ p ∈ patterns, (reading p).Hits host := by
  rw [isMatch_iff_expand h]
  refine exists_congr fun p => and_congr_right fun hp => ?_
  rw [expandDomainPattern_normalizePattern (compilable_of_new h p hp)]
  rfl

/-! ## Case and normal form -/

theorem caseless_of_mem_apexMarker : ∀ c ∈ apexMarker, Caseless c := by
  simp [apexMarker, caseless_star, caseless_dot]

theorem caseless_of_mem_subdomainMarker : ∀ c ∈ subdomainMarker, Caseless c := by
  simp [subdomainMarker, caseless_star, caseless_dot]

theorem normalizeDns_toAsciiLowercase (host : Text) :
    normalizeDnsHostOrIpLiteral (toAsciiLowercase host) = normalizeDnsHostOrIpLiteral host := by
  simp only [normalizeDnsHostOrIpLiteral, toAsciiLowercase_idem]

theorem bracketed_toAsciiLowercase (host : Text) :
    bracketed (toAsciiLowercase host) = (bracketed host).map toAsciiLowercase := by
  have hopen : ∀ c ∈ ['['], Caseless c := by
    simpa using caseless_of_not_letter (by decide) (by decide)
  have hclose : ∀ c ∈ [']'], Caseless c := by
    simpa using caseless_of_not_letter (by decide) (by decide)
  simp only [bracketed, stripPrefix_toAsciiLowercase hopen]
  cases stripPrefix ['['] host with
  | none => rfl
  | some rest =>
    simp only [map_some, bind_some, splitOnce_toAsciiLowercase hclose]
    cases splitOnce [']'] rest <;> rfl

/-- Taking the host part commutes with lowering. -/
theorem hostPart_toAsciiLowercase (host : Text) :
    hostPart (toAsciiLowercase host) = toAsciiLowercase (hostPart host) := by
  have hcolon : Caseless ':' := caseless_of_not_letter (by decide) (by decide)
  have hcount : (toAsciiLowercase host).count ':' = host.count ':' := by
    simp only [toAsciiLowercase, List.count, countP_map]
    refine countP_congr fun c _ => ?_
    simpa using hcolon c
  have htake : (toAsciiLowercase host).takeWhile (· != ':') =
      toAsciiLowercase (host.takeWhile (· != ':')) := by
    have hfun : (fun c : Char => c != ':') ∘ Char.toLower = fun c => c != ':' := by
      funext c
      rw [Function.comp_apply, Bool.eq_iff_iff, bne_iff_ne, bne_iff_ne]
      exact not_congr (hcolon c)
    rw [toAsciiLowercase, takeWhile_map, hfun]
    rfl
  rw [hostPart, hostPart, bracketed_toAsciiLowercase]
  cases bracketed host with
  | some inner => rfl
  | none =>
    simp only [map_none, hcount, htake]
    split_ifs <;> rfl

theorem normalizeHost_toAsciiLowercase (host : Text) :
    normalizeHost (toAsciiLowercase host) = normalizeHost host := by
  rw [normalizeHost_eq, normalizeHost_eq, trim_toAsciiLowercase, hostPart_toAsciiLowercase,
    normalizeDns_toAsciiLowercase]

theorem reading_toAsciiLowercase (pattern : Text) :
    reading (toAsciiLowercase pattern) = reading pattern := by
  simp only [reading, trim_toAsciiLowercase,
    stripPrefix_toAsciiLowercase caseless_of_mem_apexMarker,
    stripPrefix_toAsciiLowercase caseless_of_mem_subdomainMarker]
  cases stripPrefix apexMarker (trim pattern) with
  | some domain => simp [normalizeHost_toAsciiLowercase]
  | none =>
    cases stripPrefix subdomainMarker (trim pattern) with
    | some domain => simp [normalizeHost_toAsciiLowercase]
    | none => simp [normalizeHost_toAsciiLowercase]

/-- The domain of a pattern. -/
def DomainPattern.domain : DomainPattern → Text
  | .apexAndSubdomains domain => domain
  | .subdomainsOnly domain => domain
  | .exact domain => domain

/-- A domain in the form that normalisation gives it. -/
def NormalDomain (domain : Text) : Prop := normalizeDomain domain = domain

theorem normalizeHost_lowercase (host : Text) :
    toAsciiLowercase (normalizeHost host) = normalizeHost host := by
  rw [toAsciiLowercase]
  conv_rhs => rw [← map_id (normalizeHost host)]
  refine map_congr_left fun c hc => ?_
  obtain ⟨d, -, rfl⟩ := mem_map.1 (mem_normalizeHost hc)
  exact toLower_toLower d

theorem trimEndMatches_eq_self_iff {c : Char} : trimEndMatches c s = s ↔ s.getLast? ≠ some c := by
  rw [trimEndMatches, rdropWhile_eq_self_iff]
  rcases eq_nil_or_concat' s with rfl | ⟨s, d, rfl⟩
  · simp
  · simp

theorem getLast_trimEndMatches (c : Char) (s : Text) : (trimEndMatches c s).getLast? ≠ some c :=
  trimEndMatches_eq_self_iff.1 (rdropWhile_idempotent _ _)

/-- A normalised host does not end in a dot. -/
theorem normalizeHost_getLast (host : Text) : (normalizeHost host).getLast? ≠ some '.' := by
  rw [normalizeHost_eq, normalizeDnsHostOrIpLiteral]
  generalize hlast : trimEndMatches '.' (toAsciiLowercase (hostPart (trim host))) = trimmed
  have hdot : trimmed.getLast? ≠ some '.' := hlast ▸ getLast_trimEndMatches _ _
  cases hip : normalizeIpLiteral trimmed with
  | none => exact hdot
  | some literal =>
    rcases normalizeIpLiteral_cases hip with ⟨-, rfl⟩ | ⟨delimiter, -, hscoped⟩
    · exact hdot
    · -- the scope ends the trimmed host, or the literal ends in `%`
      simp only [scopedIpLiteral] at hscoped
      split at hscoped
      · rename_i ip scope hcut
        split_ifs at hscoped
        rw [getD_some, ← some.inj hscoped]
        rw [splitOnce_eq_some hcut] at hdot
        rcases eq_nil_or_concat' scope with rfl | ⟨scope, d, rfl⟩
        · simp
        · have hconcat : ip ++ '%' :: (scope ++ [d]) = (ip ++ '%' :: scope) ++ [d] := by simp
          rw [← append_assoc, getLast?_concat] at hdot
          rw [hconcat, getLast?_concat]
          exact hdot
      · exact absurd hscoped (by simp)

theorem normalDomain_normalizeHost (host : Text) : NormalDomain (normalizeHost host) := by
  rw [NormalDomain, normalizeDomain, trimEndMatches_eq_self_iff.2 (normalizeHost_getLast host),
    normalizeHost_lowercase]

theorem normalDomain_reading (pattern : Text) : NormalDomain (reading pattern).domain := by
  simp only [reading]
  cases stripPrefix apexMarker (trim pattern) with
  | some domain => exact normalDomain_normalizeHost domain
  | none =>
    cases stripPrefix subdomainMarker (trim pattern) with
    | some domain => exact normalDomain_normalizeHost domain
    | none => exact normalDomain_normalizeHost (trim pattern)

end NetworkProxy
