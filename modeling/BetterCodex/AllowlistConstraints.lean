/-
# What a validated allowlist can reach

A managed `allowed_domains` list is meant to bound the hosts that a candidate
configuration can allow.  Validation compares patterns as `policy.rs` parses
them; enforcement compiles them as `domain_matcher.rs` reads them.
-/
import BetterCodex.NetworkConfig
import BetterCodex.PatternCover

namespace NetworkProxy

open RustStr List DomainPattern

/-! ## Acceptance -/

section
variable {Rest Hooks Mitm : Type} {ext : Externals Rest Hooks Mitm}

variable {managed : List Text}

theorem validateAllowedDomains_of_accepted {config : NetworkProxyConfig Rest}
    {constraints : NetworkProxyConstraints} (hmanaged : constraints.allowedDomains = some managed)
    (h : validatePolicyAgainstConstraints ext config constraints = .ok ()) :
    validateAllowedDomains ext constraints.allowlistExpansionEnabled managed
      (config.allowedDomains.getD []) (config.deniedDomains.getD []) = .ok () := by
  simp only [validatePolicyAgainstConstraints, bind, bind_ok_iff, hmanaged, whenSome] at h
  obtain ⟨-, -, -, -, -, -, -, -, ⟨-, hallowed⟩, -⟩ := h
  exact hallowed

theorem refuseIf_ok_iff {refused : Bool} {fieldName candidate allowed : Text} :
    refuseIf refused fieldName candidate allowed = .ok () ↔ refused = false := by
  cases refused <;> simp [refuseIf]

/-- A list that may not grow holds only managed entries. -/
theorem exists_managed_of_fixed {candidates denied : List Text}
    (h : validateAllowedDomains ext (some false) managed candidates denied = .ok ()) :
    ∀ entry ∈ candidates, ∃ m ∈ managed, toAsciiLowercase m = toAsciiLowercase entry := by
  intro entry hentry
  simp only [validateAllowedDomains, refuseIf_ok_iff, Bool.not_eq_false', sameSet,
    Bool.and_eq_true, all_eq_true, decide_eq_true_eq] at h
  have hlower : toAsciiLowercase entry ∈ lowercaseSet candidates := mem_map_of_mem hentry
  have hrequired := (mem_filter.1 (h.1 _ hlower)).1
  exact mem_map.1 hrequired

/-- An accepted list has a managed pattern behind every entry. -/
theorem exists_managed_of_subset {candidates denied : List Text}
    (h : validateAllowedDomains ext none managed candidates denied = .ok ()) :
    ∀ entry ∈ candidates, ∃ m ∈ managed,
      (parseForConstraints ext.urlHost m).allows
        (parseForConstraints ext.urlHost entry) = true := by
  intro entry hentry
  simp only [validateAllowedDomains, refuseIf_ok_iff, bne_eq_false_iff_eq, filter_eq_nil_iff] at h
  have hallowed := h entry hentry
  rw [Bool.not_eq_true, Bool.not_eq_false', any_eq_true] at hallowed
  obtain ⟨pattern, hpattern, hallows⟩ := hallowed
  obtain ⟨m, hm, rfl⟩ := mem_map.1 hpattern
  exact ⟨m, hm, hallows⟩

end

/-! ## Inclusion and covering -/

/-- The compiled candidate list matches no host beyond the managed one. -/
def Included (candidate managed : DomainPatternSet) : Prop :=
  ∀ host, candidate.isMatch host = true → managed.isMatch host = true

/-- Every part of every candidate is covered by a managed pattern, as the matcher
reads them. -/
def Covered (managed candidates : List Text) : Prop :=
  CoveredBy (managed.map reading) (candidates.map reading)

/-- The domains of a list hold no wildcard behind their markers. -/
def PlainDomains (patterns : List Text) : Prop :=
  ∀ p ∈ patterns, Plain (reading p).domain

/-- A pattern with its domain as the comparisons of the validator see it. -/
def DomainPattern.normalize : DomainPattern → DomainPattern
  | .apexAndSubdomains domain => .apexAndSubdomains (normalizeDomain domain)
  | .subdomainsOnly domain => .subdomainsOnly (normalizeDomain domain)
  | .exact domain => .exact (normalizeDomain domain)

/-- The validator and the matcher read the entry as the same pattern. -/
def ReadAlike (urlHost : Text → Option Text) (entry : Text) : Prop :=
  (parseForConstraints urlHost entry).normalize = reading entry

/-- The first character of the domain other than a star is not a dot. -/
def StartsWithLabel (domain : Text) : Prop := (domain.dropWhile (· == '*')).head? ≠ some '.'

theorem isMatch_iff_anyHits {patterns : List Text} {globalWildcard : GlobalWildcard}
    {set : DomainPatternSet} (h : DomainPatternSet.new patterns globalWildcard = .ok set)
    (host : Text) : set.isMatch host = true ↔ AnyHits (patterns.map reading) host := by
  rw [isMatch_iff h, AnyHits]
  simp

theorem normalDomain_of_mem_readings {patterns : List Text} {p : DomainPattern}
    (hp : p ∈ patterns.map reading) : NormalDomain p.domain := by
  obtain ⟨entry, -, rfl⟩ := mem_map.1 hp
  exact normalDomain_reading entry

variable {managed candidates : List Text}

theorem Covered.included {managedSet candidateSet : DomainPatternSet}
    (hm : compileAllowlist managed = .ok managedSet)
    (hc : compileAllowlist candidates = .ok candidateSet) (h : Covered managed candidates) :
    Included candidateSet managedSet := by
  intro host hhost
  rw [isMatch_iff_anyHits hc] at hhost
  rw [isMatch_iff_anyHits hm]
  exact CoveredBy.anyHits h (fun m => normalDomain_of_mem_readings)
    (fun c => normalDomain_of_mem_readings) hhost

/-- Without wildcards in the domains, only covered lists are included. -/
theorem Included.covered {managedSet candidateSet : DomainPatternSet}
    (hm : compileAllowlist managed = .ok managedSet)
    (hc : compileAllowlist candidates = .ok candidateSet) (hpm : PlainDomains managed)
    (hpc : PlainDomains candidates) (h : Included candidateSet managedSet) :
    Covered managed candidates := by
  have hplain : ∀ patterns : List Text, PlainDomains patterns →
      ∀ p ∈ patterns.map reading, Plain p.domain ∧ NormalDomain p.domain := by
    intro patterns hpatterns p hp
    refine ⟨?_, normalDomain_of_mem_readings hp⟩
    obtain ⟨entry, hentry, rfl⟩ := mem_map.1 hp
    exact hpatterns entry hentry
  refine coveredBy_of_anyHits (hplain managed hpm) (hplain candidates hpc) fun host hhost => ?_
  rw [← isMatch_iff_anyHits hm]
  rw [← isMatch_iff_anyHits hc] at hhost
  exact h host hhost

/-! ## When acceptance covers -/

theorem normalizeDomain_idem (domain : Text) :
    normalizeDomain (normalizeDomain domain) = normalizeDomain domain := by
  have hlast : (normalizeDomain domain).getLast? ≠ some '.' := by
    intro hdot
    rw [normalizeDomain, toAsciiLowercase, getLast?_map] at hdot
    obtain ⟨c, hc, hcdot⟩ := Option.map_eq_some_iff.1 hdot
    rw [(caseless_dot c).1 hcdot] at hc
    exact getLast_trimEndMatches _ _ hc
  rw [normalizeDomain, trimEndMatches_eq_self_iff.2 hlast, normalizeDomain, toAsciiLowercase_idem]

/-- The comparisons of `allows` see normalised domains only. -/
theorem allows_normalize (managed candidate : DomainPattern) :
    managed.normalize.allows candidate.normalize = managed.allows candidate := by
  cases managed <;> cases candidate <;>
    simp [DomainPattern.normalize, DomainPattern.allows, domainEq, isSubdomainOrEqual,
      isStrictSubdomain, normalizeDomain_idem]

theorem isSubdomainOrEqual_of_strict {child parent : Text}
    (h : isStrictSubdomain child parent = true) : isSubdomainOrEqual child parent = true := by
  simp only [isStrictSubdomain, isSubdomainOrEqual, Bool.and_eq_true, Bool.or_eq_true] at h ⊢
  exact .inr h.2

/-- A pattern that allows another one allows all its parts. -/
theorem allows_part {managed candidate part : DomainPattern}
    (h : managed.allows candidate = true) (hpart : part ∈ candidate.parts) :
    managed.allows part = true := by
  cases candidate with
  | exact domain => rwa [mem_singleton.1 hpart]
  | subdomainsOnly domain => rwa [mem_singleton.1 hpart]
  | apexAndSubdomains domain =>
    cases managed with
    | exact parent => simp [allows] at h
    | subdomainsOnly parent =>
      rcases mem_cons.1 hpart with rfl | hpart
      · exact h
      · rw [mem_singleton.1 hpart]
        exact isSubdomainOrEqual_of_strict h
    | apexAndSubdomains parent =>
      rcases mem_cons.1 hpart with rfl | hpart
      · exact h
      · rw [mem_singleton.1 hpart]
        exact h

theorem hasLabelBefore_of_startsWithLabel {x parent : Text}
    (h : StartsWithLabel (x ++ '.' :: parent)) :
    hasLabelBefore (x ++ '.' :: parent) parent = true := by
  rw [hasLabelBefore_append]
  by_contra hstars
  push Not at hstars
  refine h ?_
  rw [dropWhile_append_of_pos (by simpa using hstars)]
  simp

/-- An allowed pattern is covered unless its domain starts with a dot. -/
theorem covers_of_allows {managed candidate : DomainPattern} (hm : NormalDomain managed.domain)
    (hc : NormalDomain candidate.domain) (h : managed.allows candidate = true)
    (hlabel : StartsWithLabel candidate.domain) :
    ∀ part ∈ candidate.parts, managed.Covers part := by
  intro part hpart
  refine ⟨allows_part h hpart, ?_⟩
  rintro domain rfl
  have hallows := allows_part h hpart
  obtain rfl : domain = candidate.domain := by
    rcases part_cases hpart with ⟨heq, -⟩ | ⟨heq, -⟩
    · exact exact.inj heq
    · cases heq
  rcases (allows_exact_iff hm hc).1 hallows with ⟨-, heq⟩ | ⟨-, x, hx⟩
  · exact .inl heq
  · right
    rw [hx] at hlabel ⊢
    exact hasLabelBefore_of_startsWithLabel hlabel

theorem covers_self {pattern : DomainPattern} (hn : NormalDomain pattern.domain) :
    ∀ part ∈ pattern.parts, pattern.Covers part := by
  intro part hpart
  rcases part_cases hpart with ⟨rfl, hapex⟩ | ⟨rfl, hsub⟩
  · refine ⟨(allows_exact_iff hn hn).2 (.inl ⟨hapex, rfl⟩), ?_⟩
    rintro domain ⟨rfl⟩
    exact .inl rfl
  · exact ⟨(allows_subdomainsOnly_iff hn hn).2 ⟨hsub, .inl rfl⟩, fun domain h => by cases h⟩

/-- A list whose entries equal managed ones up to case is covered. -/
theorem covered_of_same_case
    (h : ∀ entry ∈ candidates, ∃ m ∈ managed, toAsciiLowercase m = toAsciiLowercase entry) :
    Covered managed candidates := by
  intro candidate hcandidate part hpart
  obtain ⟨entry, hentry, rfl⟩ := mem_map.1 hcandidate
  obtain ⟨m, hm, hcase⟩ := h entry hentry
  have hreading : reading m = reading entry := by
    rw [← reading_toAsciiLowercase m, hcase, reading_toAsciiLowercase]
  refine ⟨reading m, mem_map_of_mem hm, ?_⟩
  rw [hreading]
  exact covers_self (normalDomain_reading entry) part hpart

/-- Entries that both sides read alike are covered once they are allowed. -/
theorem covered_of_readAlike {urlHost : Text → Option Text}
    (hm : ∀ m ∈ managed, ReadAlike urlHost m) (hc : ∀ c ∈ candidates, ReadAlike urlHost c)
    (hlabel : ∀ c ∈ candidates, StartsWithLabel (reading c).domain)
    (h : ∀ entry ∈ candidates, ∃ m ∈ managed,
      (parseForConstraints urlHost m).allows
        (parseForConstraints urlHost entry) = true) :
    Covered managed candidates := by
  intro candidate hcandidate part hpart
  obtain ⟨entry, hentry, rfl⟩ := mem_map.1 hcandidate
  obtain ⟨m, hmem, hallows⟩ := h entry hentry
  refine ⟨reading m, mem_map_of_mem hmem, ?_⟩
  refine covers_of_allows (normalDomain_reading m) (normalDomain_reading entry) ?_
    (hlabel entry hentry) part hpart
  rw [← hm m hmem, ← hc entry hentry, allows_normalize]
  exact hallows

/-! ## The reach of an accepted allowlist -/

/-- **The reach of an accepted allowlist.**  For a managed list without expansion
and an accepted candidate: covered candidates match only hosts of the managed
list; candidates without wildcards in their domains do so only when they are
covered; candidates are covered if they have to equal the managed list, and also
if validator and matcher read all entries alike and no candidate domain starts
with a dot. -/
theorem accepted_allowlist_included {Rest Hooks Mitm : Type} (ext : Externals Rest Hooks Mitm)
    (config : NetworkProxyConfig Rest) (constraints : NetworkProxyConstraints)
    (managed : List Text) (managedSet candidateSet : DomainPatternSet)
    (hmanaged : constraints.allowedDomains = some managed)
    (hexpansion : constraints.allowlistExpansionEnabled ≠ some true)
    (haccepted : validatePolicyAgainstConstraints ext config constraints = .ok ())
    (hm : compileAllowlist managed = .ok managedSet)
    (hc : compileAllowlist (config.allowedDomains.getD []) = .ok candidateSet) :
    (Covered managed (config.allowedDomains.getD []) → Included candidateSet managedSet) ∧
    (PlainDomains managed → PlainDomains (config.allowedDomains.getD []) →
      (Included candidateSet managedSet ↔ Covered managed (config.allowedDomains.getD []))) ∧
    (constraints.allowlistExpansionEnabled = some false →
      Covered managed (config.allowedDomains.getD [])) ∧
    ((∀ p ∈ managed, ReadAlike ext.urlHost p) →
      (∀ p ∈ config.allowedDomains.getD [], ReadAlike ext.urlHost p ∧
        StartsWithLabel (DomainPattern.reading p).domain) →
      Covered managed (config.allowedDomains.getD [])) := by
  have hvalid := validateAllowedDomains_of_accepted hmanaged haccepted
  have hfixed : constraints.allowlistExpansionEnabled = some false →
      Covered managed (config.allowedDomains.getD []) := by
    intro hfalse
    rw [hfalse] at hvalid
    exact covered_of_same_case (exists_managed_of_fixed hvalid)
  refine ⟨Covered.included hm hc, fun hpm hpc => ⟨Included.covered hm hc hpm hpc,
    Covered.included hm hc⟩, hfixed, fun hrm hrc => ?_⟩
  match hflag : constraints.allowlistExpansionEnabled with
  | some true => exact absurd hflag hexpansion
  | some false => exact hfixed hflag
  | none =>
    rw [hflag] at hvalid
    exact covered_of_readAlike hrm (fun c hcm => (hrc c hcm).1) (fun c hcm => (hrc c hcm).2)
      (exists_managed_of_subset hvalid)

/-- The `url` crate's host parser rejects a text with a colon outside brackets. -/
def RejectsUnbracketedColon (urlHost : Text → Option Text) : Prop :=
  ∀ host : Text, ':' ∈ host → host.head? ≠ some '[' → urlHost host = none

/-- A configuration with the given permission entries and everything else off. -/
def domainsOnly (entries : List NetworkDomainPermissionEntry) : NetworkProxyConfig Unit where
  enabled := false
  allowUpstreamProxy := false
  dangerouslyAllowNonLoopbackProxy := false
  dangerouslyAllowAllUnixSockets := none
  mode := .limited
  domains := some ⟨entries⟩
  reviewDomains := []
  unixSockets := none
  allowLocalBinding := none
  mitm := false
  mitmCa := none
  credentialBroker := false
  rest := ()

/-- Constraints that constrain nothing. -/
def unconstrained : NetworkProxyConstraints where
  enabled := none
  mode := none
  allowUpstreamProxy := none
  dangerouslyAllowNonLoopbackProxy := none
  dangerouslyAllowAllUnixSockets := none
  allowedDomains := none
  allowlistExpansionEnabled := none
  deniedDomains := none
  denylistExpansionEnabled := none
  allowUnixSockets := none
  allowLocalBinding := none

/-- Constraints that manage the allowed domains only. -/
def managedDomains (managed : List Text) (expansion : Option Bool) : NetworkProxyConstraints :=
  { unconstrained with allowedDomains := some managed, allowlistExpansionEnabled := expansion }

/-- An outside world whose host parser takes plain names only, and gives them in lower case. -/
def plainExternals : Externals Unit Unit Unit where
  urlHost host :=
    if host.all (fun c => c.isAlphanum || c == '.' || c == '-') then some (host.map Char.toLower)
    else none
  debugText text := text
  debugList texts := texts.flatten
  validateMitmHookConfig _ := .ok ()
  compileMitmHooks _ := .ok ()
  newMitmState _ _ := .ok ()

/-- The theorem at a subdomain of a managed wildcard, spelled with another case and
a trailing dot. -/
theorem accepted_allowlist_included_subdomain :
    ∃ managedSet candidateSet,
      compileAllowlist ["*.example.com".toList] = .ok managedSet ∧
      compileAllowlist ["API.Example.com.".toList] = .ok candidateSet ∧
      Included candidateSet managedSet := by
  refine ⟨⟨[Utf8.asBytes "?*.example.com".toList]⟩, ⟨[Utf8.asBytes "api.example.com".toList]⟩,
    by decide, by decide, ?_⟩
  have h := accepted_allowlist_included plainExternals
    (domainsOnly [⟨"API.Example.com.".toList, .allow⟩])
    (managedDomains ["*.example.com".toList] none) ["*.example.com".toList]
    ⟨[Utf8.asBytes "?*.example.com".toList]⟩ ⟨[Utf8.asBytes "api.example.com".toList]⟩
    rfl (by decide) (by decide) (by decide) (by decide)
  have hlist : (domainsOnly [⟨"API.Example.com.".toList, .allow⟩]).allowedDomains.getD [] =
      ["API.Example.com.".toList] := by decide
  refine h.1 (h.2.2.2 ?_ ?_)
  · rw [forall_mem_singleton, ReadAlike]
    decide
  · rw [hlist, forall_mem_singleton, ReadAlike, StartsWithLabel]
    exact ⟨by decide, by decide⟩

/-- The host parser rejects `good.com:443` and `evil.com:443` alike, so the
validator takes both for the empty domain; the matcher drops the port. -/
theorem accepted_allowlist_escapes :
    (∃ urlHost, RejectsUnbracketedColon urlHost) ∧
    ∀ ext : Externals Unit Unit Unit, RejectsUnbracketedColon ext.urlHost →
      ext.validateMitmHookConfig (domainsOnly [⟨"evil.com:443".toList, .allow⟩]) = .ok () →
      validatePolicyAgainstConstraints ext (domainsOnly [⟨"evil.com:443".toList, .allow⟩])
        (managedDomains ["good.com:443".toList] none) = .ok () ∧
      ∃ managedSet candidateSet,
        compileAllowlist ["good.com:443".toList] = .ok managedSet ∧
        compileAllowlist ["evil.com:443".toList] = .ok candidateSet ∧
        candidateSet.isMatch "evil.com".toList = true ∧
        managedSet.isMatch "evil.com".toList = false := by
  refine ⟨⟨fun _ => none, fun _ _ _ => rfl⟩, fun ext hurl hhooks => ⟨?_, ?_⟩⟩
  · have hgood : ext.urlHost "good.com:443".toList = none := hurl _ (by decide) (by decide)
    have hevil : ext.urlHost "evil.com:443".toList = none := hurl _ (by decide) (by decide)
    have hparse : ∀ entry ∈ ["good.com:443".toList, "evil.com:443".toList],
        DomainPattern.parseForConstraints ext.urlHost entry =
          .exact ((ext.urlHost entry).getD []) := by
      rw [forall_mem_cons, forall_mem_singleton]
      exact ⟨rfl, rfl⟩
    have hlist : (domainsOnly [⟨"evil.com:443".toList, .allow⟩]).allowedDomains.getD [] =
        ["evil.com:443".toList] := by decide
    have hallowed : validateAllowedDomains ext none ["good.com:443".toList]
        ["evil.com:443".toList] [] = .ok () := by
      simp only [validateAllowedDomains, refuseIf_ok_iff, map_cons, map_nil,
        hparse _ (.head _ ..), filter_cons, filter_nil,
        hparse "evil.com:443".toList (by simp), hgood, hevil]
      decide
    have hmanaged : (managedDomains ["good.com:443".toList] none).allowedDomains =
        some ["good.com:443".toList] := rfl
    simp only [validatePolicyAgainstConstraints, bind, bind_ok_iff, validateMitmHooks, hhooks,
      hmanaged, whenSome, hlist]
    exact ⟨trivial, by decide, by decide, rfl, by decide, by decide,
      by decide, by decide, ⟨by decide, hallowed⟩, rfl, rfl⟩
  · exact ⟨⟨[Utf8.asBytes "good.com".toList]⟩, ⟨[Utf8.asBytes "evil.com".toList]⟩,
      by decide, by decide, by decide, by decide⟩

end NetworkProxy
