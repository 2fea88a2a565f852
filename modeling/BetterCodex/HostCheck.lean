/-
# The proxy's host check

`host_blocked_with_lookup` decides whether a request to a host may pass: an
explicit deny wins, local and private destinations are opt-in, managed review
selectors come before ordinary allows, and what is left needs an allowlist match
or an approval.
-/
import BetterCodex.AllowlistConstraints

namespace NetworkProxy

open RustStr IpText

/-! ## Address classes -/

def ipv4InCidr (ip base : Ipv4Addr) (prefixLength : ℕ) : Bool :=
  let mask : UInt32 := if prefixLength = 0 then 0
    else 0xffffffff <<< UInt32.ofNat (32 - prefixLength)
  ip.toU32 &&& mask == base.toU32 &&& mask

def isNonPublicIpv4 (ip : Ipv4Addr) : Bool :=
  ip.isLoopback || ip.isPrivate || ip.isLinkLocal || ip.isUnspecified || ip.isMulticast
    || ip.isBroadcast
    || ipv4InCidr ip ⟨0, 0, 0, 0⟩ 8
    || ipv4InCidr ip ⟨100, 64, 0, 0⟩ 10
    || ipv4InCidr ip ⟨192, 0, 0, 0⟩ 24
    || ipv4InCidr ip ⟨192, 0, 2, 0⟩ 24
    || ipv4InCidr ip ⟨198, 18, 0, 0⟩ 15
    || ipv4InCidr ip ⟨198, 51, 100, 0⟩ 24
    || ipv4InCidr ip ⟨203, 0, 113, 0⟩ 24
    || ipv4InCidr ip ⟨240, 0, 0, 0⟩ 4

def isNonPublicIpv6 (ip : Ipv6Addr) : Bool :=
  match ip.toIpv4 with
  | some v4 => isNonPublicIpv4 v4 || ip.isLoopback
  | none => ip.isLoopback || ip.isUnspecified || ip.isMulticast || ip.isUniqueLocal
      || ip.isUnicastLinkLocal

def isNonPublicIp : IpAddr → Bool
  | .v4 ip => isNonPublicIpv4 ip
  | .v6 ip => isNonPublicIpv6 ip

/-! ## Hosts -/

/-- `Host`: a normalised host text, never empty. -/
structure Host where
  asStr : Text
  ne_nil : asStr ≠ []

def Host.parse (input : Text) : Except Text Host :=
  if h : normalizeHost input = [] then .error "host is empty".toList
  else .ok ⟨normalizeHost input, h⟩

def isLoopbackHost (host : Host) : Bool :=
  let host := (unscopedIpLiteral host.asStr).getD host.asStr
  if host = "localhost".toList then true
  else match parseIpAddr host with
    | some ip => ip.isLoopback
    | none => false

/-- The literals that the check takes for local: loopback hosts, and addresses
outside the public network. -/
def isLocalLiteral (host : Host) : Bool :=
  if isLoopbackHost host then true
  else match parseIpAddr ((unscopedIpLiteral host.asStr).getD host.asStr) with
    | some ip => isNonPublicIp ip
    | none => false

/-- What the DNS lookup came to within its time limit. -/
inductive LookupOutcome where
  | resolved (addrs : List IpAddr)
  | failed
  | timedOut
  deriving DecidableEq, Repr

def hostResolvesToNonPublicIp (host : Text) (port : ℕ) (lookup : Text → ℕ → LookupOutcome) : Bool :=
  match parseIpAddr host with
  | some ip => isNonPublicIp ip
  | none =>
    match lookup host port with
    | .resolved addrs => addrs.any isNonPublicIp
    | .failed => true
    | .timedOut => true

def domainsMatchHostOrUnscoped (set : DomainPatternSet) (host : Text) : Bool :=
  set.isMatch host || (unscopedIpLiteral host).any set.isMatch

/-- The test of `is_explicit_local_allowlisted` on one pattern. -/
def namesWithoutWildcard (pattern : Text) (host : Text) : Bool :=
  let pattern := trim pattern
  if pattern = ['*'] || startsWith pattern subdomainMarker || startsWith pattern apexMarker then
    false
  else if '*' ∈ pattern ∨ '?' ∈ pattern then false
  else normalizeHost pattern == host
    || (unscopedIpLiteral host).any (fun ip => normalizeHost pattern == ip)

def isExplicitLocalAllowlisted (allowedDomains : List Text) (host : Host) : Bool :=
  allowedDomains.any (namesWithoutWildcard · host.asStr)

/-! ## The decision -/

inductive HostBlockReason where
  | denied
  | notAllowed
  | notAllowedLocal
  deriving DecidableEq, Repr

inductive HostBlockDecision where
  | allowed
  | blocked (reason : HostBlockReason)
  deriving DecidableEq, Repr

inductive HostAuthorization where
  | requireAllowlist
  | approved
  deriving DecidableEq, Repr

inductive LocalBindingPolicy where
  | defaultFalse
  | requireTrue
  deriving DecidableEq, Repr

section
variable {Rest Hooks Mitm : Type} (policy : LocalBindingPolicy)

def LocalBindingPolicy.resolve (config : NetworkProxyConfig Rest) : Bool :=
  config.allowLocalBinding.getD (config.enabled && policy == .requireTrue)

def LocalBindingPolicy.resolvedConfig
    (config : NetworkProxyConfig Rest) : NetworkProxyConfig Rest :=
  { config with allowLocalBinding := some (policy.resolve config) }

/-- Whether local binding is on for a check: an explicit value for this request, or
the policy, but never against an explicit `false` of the configuration. -/
def localBindingOn (config : NetworkProxyConfig Rest) (requested : Option Bool) : Bool :=
  requested.getD (policy.resolve config) && config.allowLocalBinding != some false

variable (state : ConfigState Rest Hooks Mitm)

/-- `is_authorized`: approved, or allowed and not under review. -/
def isAuthorized (host : Host) (authorization : HostAuthorization) : Bool :=
  authorization == .approved
    || (!domainsMatchHostOrUnscoped state.reviewSet host.asStr
      && domainsMatchHostOrUnscoped state.allowSet host.asStr)

/-- The check made when local binding is off: a local literal has to be named in
the allowlist, any other host must not resolve to a local address. -/
def isBlockedLocally (host : Host) (port : ℕ)
    (authorization : HostAuthorization) (lookup : Text → ℕ → LookupOutcome) : Bool :=
  if isLocalLiteral host then
    !isExplicitLocalAllowlisted (state.config.allowedDomains.getD []) host
  else isAuthorized state host authorization && hostResolvesToNonPublicIp host.asStr port lookup

/-- `host_blocked_with_lookup`, for a host that parses. -/
def hostDecision (host : Host)
    (port : ℕ) (requested : Option Bool) (authorization : HostAuthorization)
    (lookup : Text → ℕ → LookupOutcome) : HostBlockDecision :=
  -- an explicit deny always wins, then the local check, then the allowlist
  if domainsMatchHostOrUnscoped state.denySet host.asStr then .blocked .denied
  else if !localBindingOn policy state.config requested
      && isBlockedLocally state host port authorization lookup then .blocked .notAllowedLocal
  else if !isAuthorized state host authorization then .blocked .notAllowed
  else .allowed

/-- `host_blocked_with_lookup`, after the reload. -/
def hostBlockedWithLookup
    (host : Text) (port : ℕ) (requested : Option Bool) (authorization : HostAuthorization)
    (lookup : Text → ℕ → LookupOutcome) : HostBlockDecision :=
  match Host.parse host with
  | .error _ => .blocked .notAllowed
  | .ok host => hostDecision policy state host port requested authorization lookup

def hostBlocked (host : Text) (port : ℕ) (lookup : Text → ℕ → LookupOutcome) : HostBlockDecision :=
  hostBlockedWithLookup policy state host port none .requireAllowlist lookup

/-! ## What an allowed host satisfies -/

/-- A listed pattern matches a normalised host, or its address without the scope. -/
def PatternMatches (pattern host : Text) : Prop :=
  (DomainPattern.reading pattern).Hits host ∨
    ∃ ip, unscopedIpLiteral host = some ip ∧ (DomainPattern.reading pattern).Hits ip

/-- Every address of the host is public, and the lookup came to an answer. -/
def ResolvesPublic (lookup : Text → ℕ → LookupOutcome) (host : Text) (port : ℕ) : Prop :=
  (∃ ip, parseIpAddr host = some ip ∧ isNonPublicIp ip = false) ∨
    parseIpAddr host = none ∧ ∃ addrs, lookup host port = .resolved addrs ∧
      ∀ ip ∈ addrs, isNonPublicIp ip = false

/-- The pattern is the host, or its address without the scope, written without
wildcards. -/
def NamesHost (pattern host : Text) : Prop :=
  Plain (trim pattern) ∧ (normalizeHost (trim pattern) = host ∨
    unscopedIpLiteral host = some (normalizeHost (trim pattern)))

/-- A compiled set matches as its list of patterns does. -/
theorem domainsMatch_iff {patterns : List Text} {globalWildcard : GlobalWildcard}
    {set : DomainPatternSet} (h : DomainPatternSet.new patterns globalWildcard = .ok set)
    (host : Text) :
    domainsMatchHostOrUnscoped set host = true ↔ ∃ p ∈ patterns, PatternMatches p host := by
  simp only [domainsMatchHostOrUnscoped, Bool.or_eq_true, Option.any_eq_true, isMatch_iff h,
    PatternMatches, and_or_left, exists_or]
  refine or_congr_right ⟨?_, ?_⟩
  · rintro ⟨ip, hip, p, hp, hhits⟩
    exact ⟨p, hp, ip, hip, hhits⟩
  · rintro ⟨p, hp, ip, hip, hhits⟩
    exact ⟨ip, hip, p, hp, hhits⟩

theorem namesHost_of_namesWithoutWildcard {pattern host : Text}
    (h : namesWithoutWildcard pattern host = true) : NamesHost pattern host := by
  simp only [namesWithoutWildcard] at h
  split_ifs at h with hmarker hwild
  · push Not at hwild
    refine ⟨hwild, ?_⟩
    simp only [Bool.or_eq_true, beq_iff_eq, Option.any_eq_true] at h
    rcases h with h | ⟨ip, hip, heq⟩
    · exact .inl h
    · exact .inr (by rw [hip, heq])

/-- A host that is not held for private resolves to public addresses. -/
theorem resolvesPublic_of_not {lookup : Text → ℕ → LookupOutcome} {host : Text} {port : ℕ}
    (h : hostResolvesToNonPublicIp host port lookup = false) : ResolvesPublic lookup host port := by
  simp only [hostResolvesToNonPublicIp] at h
  cases hparse : parseIpAddr host with
  | some ip =>
    rw [hparse] at h
    exact .inl ⟨ip, hparse, h⟩
  | none =>
    rw [hparse] at h
    refine .inr ⟨hparse, ?_⟩
    cases hlookup : lookup host port with
    | resolved addrs =>
      simp only [hlookup, List.any_eq_false, Bool.not_eq_true] at h
      exact ⟨addrs, rfl, h⟩
    | failed => simp [hlookup] at h
    | timedOut => simp [hlookup] at h

/-- The three conditions of an allowed host. -/
theorem hostDecision_allowed_iff {policy : LocalBindingPolicy}
    {state : ConfigState Rest Hooks Mitm} {host : Host} {port : ℕ} {requested : Option Bool}
    {authorization : HostAuthorization} {lookup : Text → ℕ → LookupOutcome} :
    hostDecision policy state host port requested authorization lookup = .allowed ↔
      domainsMatchHostOrUnscoped state.denySet host.asStr = false ∧
      (localBindingOn policy state.config requested = false →
        isBlockedLocally state host port authorization lookup = false) ∧
      isAuthorized state host authorization = true := by
  simp only [hostDecision]
  split_ifs with hdeny hlocal hauth
  · simp [hdeny]
  · simp only [Bool.and_eq_true, Bool.not_eq_true'] at hlocal
    simp [hlocal]
  · simp only [Bool.not_eq_true'] at hauth
    simp [hauth]
  · simp only [Bool.and_eq_true, Bool.not_eq_true', not_and, Bool.not_eq_true,
      Bool.not_eq_false] at hdeny hlocal hauth
    simp only [hdeny, hauth, true_and, and_true, true_iff]
    exact hlocal

/-- **What an allowed host satisfies.**  No denied pattern matches it; some allowed
pattern matches it, unless the request was approved; and with local binding off it
is a local literal that the allowlist names without a wildcard, or every address
it resolves to is public. -/
theorem host_allowed_sound (policy : LocalBindingPolicy) (state : ConfigState Rest Hooks Mitm)
    (host : Text) (port : ℕ) (requested : Option Bool) (authorization : HostAuthorization)
    (lookup : Text → ℕ → LookupOutcome)
    (h : hostBlockedWithLookup policy state host port requested authorization lookup = .allowed) :
    (∀ p ∈ state.config.deniedDomains.getD [], ¬ PatternMatches p (normalizeHost host)) ∧
    (authorization = .requireAllowlist →
      ∃ p ∈ state.config.allowedDomains.getD [], PatternMatches p (normalizeHost host)) ∧
    (localBindingOn policy state.config requested = false →
      (∃ parsed, Host.parse host = .ok parsed ∧ isLocalLiteral parsed = true ∧
        ∃ p ∈ state.config.allowedDomains.getD [], NamesHost p (normalizeHost host)) ∨
      ResolvesPublic lookup (normalizeHost host) port) := by
  simp only [hostBlockedWithLookup] at h
  by_cases hne : normalizeHost host = []
  · rw [Host.parse, dif_pos hne] at h
    cases h
  have hparse : Host.parse host = .ok ⟨normalizeHost host, hne⟩ := dif_neg hne
  rw [hparse] at h
  obtain ⟨hdeny, hlocal, hauth⟩ := hostDecision_allowed_iff.1 h
  refine ⟨?_, ?_, ?_⟩
  · intro p hp hmatch
    rw [(domainsMatch_iff state.denySet_eq _).2 ⟨p, hp, hmatch⟩] at hdeny
    cases hdeny
  · rintro rfl
    simp only [isAuthorized, Bool.or_eq_true, Bool.and_eq_true, beq_iff_eq, reduceCtorEq,
      false_or] at hauth
    exact (domainsMatch_iff state.allowSet_eq _).1 hauth.2
  · intro hoff
    have hnot := hlocal hoff
    rw [isBlockedLocally] at hnot
    split_ifs at hnot with hliteral
    · -- a local literal: the allowlist names it
      left
      rw [Bool.not_eq_false', isExplicitLocalAllowlisted, List.any_eq_true] at hnot
      obtain ⟨p, hp, hnames⟩ := hnot
      exact ⟨_, hparse, hliteral, p, hp, namesHost_of_namesWithoutWildcard hnames⟩
    · right
      rw [hauth, Bool.true_and] at hnot
      exact resolvesPublic_of_not hnot

end

/-- A state that names `localhost` and denies one domain. -/
def localhostState : ConfigState Unit Unit Unit where
  executorOs := .linux
  config := domainsOnly [⟨"localhost".toList, .allow⟩, ⟨"*.example.com".toList, .deny⟩]
  brokerageCreatedDefaultAllowlist := false
  allowSet := ⟨[Utf8.asBytes "localhost".toList]⟩
  denySet := ⟨[Utf8.asBytes "?*.example.com".toList]⟩
  reviewSet := ⟨[]⟩
  mitm := none
  mitmHooks := ()
  constraints := unconstrained
  blocked := []
  blockedTotal := 0
  allowSet_eq := by decide
  denySet_eq := by decide
  reviewSet_eq := by decide

/-- The theorem at a spelling of `localhost`, with a lookup that would fail. -/
theorem host_allowed_sound_localhost :
    hostBlockedWithLookup .defaultFalse localhostState "LocalHost.:80".toList 80 none
      .requireAllowlist (fun _ _ => .failed) = .allowed ∧
    (∀ p ∈ localhostState.config.deniedDomains.getD [], ¬ PatternMatches p "localhost".toList) ∧
    ∃ p ∈ localhostState.config.allowedDomains.getD [], PatternMatches p "localhost".toList := by
  have hallowed : hostBlockedWithLookup .defaultFalse localhostState "LocalHost.:80".toList 80 none
      .requireAllowlist (fun _ _ => .failed) = .allowed := by decide
  have hnorm : normalizeHost "LocalHost.:80".toList = "localhost".toList := by decide
  have h := host_allowed_sound .defaultFalse localhostState "LocalHost.:80".toList 80 none
    .requireAllowlist (fun _ _ => .failed) hallowed
  rw [hnorm] at h
  exact ⟨hallowed, h.1, h.2.1 rfl⟩

/-- **An approval stands for the allowlist.**  A host that no allowed pattern matches is allowed if
the request was approved. -/
theorem approved_host_is_not_listed :
    hostBlockedWithLookup .defaultFalse localhostState "example.org".toList 443 none .approved
      (fun _ _ => .resolved [.v4 ⟨93, 184, 216, 34⟩]) = .allowed ∧
    ¬ ∃ p ∈ localhostState.config.allowedDomains.getD [],
      PatternMatches p (normalizeHost "example.org".toList) := by
  refine ⟨by decide, fun h => ?_⟩
  have hmatch := (domainsMatch_iff localhostState.allowSet_eq _).2 h
  revert hmatch
  decide

end NetworkProxy
