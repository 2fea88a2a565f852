/-
# Network proxy configuration and managed constraints

The proxy's configuration (`config.rs`), the constraints that a managed setup puts
on it and the state that is compiled from it (`state.rs`).

What the code takes from elsewhere is collected in `Externals`: the host parser
of the `url` crate, the `Debug` format of the standard library, and the MITM
layer, of which only success or failure matters here.
-/
import BetterCodex.DomainPattern

namespace NetworkProxy

open RustStr List

/-! ## Domain permissions -/

/-- `NetworkDomainPermission`, weakest first. -/
inductive NetworkDomainPermission where
  | none
  | allow
  | deny
  deriving DecidableEq, Repr

/-- The variant order: deny wins over allow. -/
def NetworkDomainPermission.rank : NetworkDomainPermission → ℕ
  | .none => 0
  | .allow => 1
  | .deny => 2

structure NetworkDomainPermissionEntry where
  pattern : Text
  permission : NetworkDomainPermission
  deriving DecidableEq, Repr

structure NetworkDomainPermissions where
  entries : List NetworkDomainPermissionEntry
  deriving DecidableEq, Repr

/-- One turn of `effective_entries`: a new pattern is appended, a known one keeps
the stronger permission. -/
def recordEntry (effective : List NetworkDomainPermissionEntry)
    (entry : NetworkDomainPermissionEntry) : List NetworkDomainPermissionEntry :=
  if effective.any (·.pattern == entry.pattern) then
    effective.map fun known =>
      if known.pattern = entry.pattern ∧ known.permission.rank < entry.permission.rank then entry
      else known
  else effective ++ [entry]

/-- `NetworkDomainPermissions::effective_entries`, in the order of first mention. -/
def NetworkDomainPermissions.effectiveEntries (domains : NetworkDomainPermissions) :
    List NetworkDomainPermissionEntry :=
  domains.entries.foldl recordEntry []

/-! ## The configuration -/

inductive NetworkUnixSocketPermission where
  | allow
  | deny
  deriving DecidableEq, Repr

structure NetworkUnixSocketPermissions where
  entries : List (Text × NetworkUnixSocketPermission)
  deriving DecidableEq, Repr

structure NetworkMitmCaConfig where
  certificateFile : Text
  privateKeyFile : Text
  deriving DecidableEq, Repr

inductive NetworkMode where
  | limited
  | full
  deriving DecidableEq, Repr

inductive Platform where
  | linux
  | macos
  | windows
  | unknown
  deriving DecidableEq, Repr

/-- `NetworkProxyConfig`; the fields that no function here reads are in `rest`. -/
structure NetworkProxyConfig (Rest : Type) where
  enabled : Bool
  allowUpstreamProxy : Bool
  dangerouslyAllowNonLoopbackProxy : Bool
  dangerouslyAllowAllUnixSockets : Option Bool
  mode : NetworkMode
  domains : Option NetworkDomainPermissions
  reviewDomains : List Text
  unixSockets : Option NetworkUnixSocketPermissions
  allowLocalBinding : Option Bool
  mitm : Bool
  mitmCa : Option NetworkMitmCaConfig
  credentialBroker : Bool
  rest : Rest
  deriving DecidableEq

namespace NetworkProxyConfig

variable {Rest : Type} (config : NetworkProxyConfig Rest)

/-- `domain_entries`: the patterns with the given permission, if there are any. -/
def domainEntries (permission : NetworkDomainPermission) : Option (List Text) :=
  (config.domains.map fun domains =>
    (domains.effectiveEntries.filter (·.permission == permission)).map (·.pattern)).filter (· != [])

def allowedDomains : Option (List Text) := config.domainEntries .allow

def deniedDomains : Option (List Text) := config.domainEntries .deny

def allowUnixSockets : List Text :=
  match config.unixSockets with
  | some sockets => (sockets.entries.filter (·.2 == .allow)).map (·.1)
  | none => []

/-- `allow_local_binding`. -/
def allowsLocalBinding : Bool := config.allowLocalBinding.getD false

/-- An empty permission list is stored as none. -/
def withEntries (entries : List NetworkDomainPermissionEntry) : NetworkProxyConfig Rest :=
  { config with domains := if entries = [] then none else some ⟨entries⟩ }

/-- The listed entries, none when there is no list. -/
def entries : List NetworkDomainPermissionEntry :=
  match config.domains with
  | some domains => domains.entries
  | none => []

/-- One turn of `set_domain_entries`. -/
def pushDomainEntry (permission : NetworkDomainPermission)
    (entries : List NetworkDomainPermissionEntry) (pattern : Text) :
    List NetworkDomainPermissionEntry :=
  if entries.any (fun existing => existing.pattern == pattern && existing.permission == permission)
  then entries else entries ++ [⟨pattern, permission⟩]

def setDomainEntries (patterns : List Text) (permission : NetworkDomainPermission) :
    NetworkProxyConfig Rest :=
  config.withEntries
    (patterns.foldl (pushDomainEntry permission)
      (config.entries.filter (·.permission != permission)))

def setAllowedDomains (patterns : List Text) : NetworkProxyConfig Rest :=
  config.setDomainEntries patterns .allow

def upsertDomainPermission (host : Text) (permission : NetworkDomainPermission)
    (normalize : Text → Text) : NetworkProxyConfig Rest :=
  config.withEntries
    (config.entries.filter (fun entry => normalize entry.pattern != normalize host)
      ++ [⟨host, permission⟩])

end NetworkProxyConfig

structure NetworkProxyConstraints where
  enabled : Option Bool
  mode : Option NetworkMode
  allowUpstreamProxy : Option Bool
  dangerouslyAllowNonLoopbackProxy : Option Bool
  dangerouslyAllowAllUnixSockets : Option Bool
  allowedDomains : Option (List Text)
  allowlistExpansionEnabled : Option Bool
  deniedDomains : Option (List Text)
  denylistExpansionEnabled : Option Bool
  allowUnixSockets : Option (List Text)
  allowLocalBinding : Option Bool
  deriving DecidableEq, Repr

/-- What the modelled functions take from outside: `url::Host::parse` with
`to_string`, the `Debug` format of texts, lists and platforms, and the MITM layer
with its compiled hooks and its state. -/
structure Externals (Rest Hooks Mitm : Type) where
  urlHost : Text → Option Text
  debugText : Text → Text
  debugList : List Text → Text
  validateMitmHookConfig : NetworkProxyConfig Rest → Except Text Unit
  compileMitmHooks : NetworkProxyConfig Rest → Except Text Hooks
  newMitmState : Bool → Option NetworkMitmCaConfig → Except Text Mitm

/-! ## Validation against the constraints -/

inductive NetworkProxyConstraintError where
  | invalidValue (fieldName candidate allowed : Text)
  deriving DecidableEq, Repr

/-- The error text, `invalid value for {field}: {candidate} (allowed {allowed})`. -/
def NetworkProxyConstraintError.message : NetworkProxyConstraintError → Text
  | .invalidValue fieldName candidate allowed =>
    "invalid value for ".toList ++ fieldName ++ ": ".toList ++ candidate ++ " (allowed ".toList
      ++ allowed ++ [')']

/-- One validator: the value is refused with the given error. -/
def refuseIf (refused : Bool) (fieldName candidate allowed : Text) :
    Except NetworkProxyConstraintError Unit :=
  if refused then .error (.invalidValue fieldName candidate allowed) else .ok ()

/-- A switch that the managed constraints may forbid. -/
def validateSwitch (fieldName : String) (candidate allowed : Bool) :
    Except NetworkProxyConstraintError Unit :=
  refuseIf (candidate && !allowed) fieldName.toList "true".toList
    "false (disabled by managed config)".toList

def networkModeRank : NetworkMode → ℕ
  | .limited => 0
  | .full => 1

/-- The `Debug` text of a mode. -/
def NetworkMode.debug : NetworkMode → Text
  | .limited => "Limited".toList
  | .full => "Full".toList

/-- The lower-cased entries of a list; the source collects them in a set. -/
def lowercaseSet (patterns : List Text) : List Text := patterns.map toAsciiLowercase

/-- Equality of two sets that are given as lists. -/
def sameSet (left right : List Text) : Bool := left.all (· ∈ right) && right.all (· ∈ left)

def validateNonGlobalWildcardDomainPatterns (fieldName : String) (patterns : List Text) :
    Except NetworkProxyConstraintError Unit :=
  match patterns.find? isGlobalWildcardDomainPattern with
  | some pattern => .error (.invalidValue fieldName.toList (trim pattern)
      "exact hosts or scoped wildcards like *.example.com or **.example.com".toList)
  | none => .ok ()

section
variable {Rest Hooks Mitm : Type} (ext : Externals Rest Hooks Mitm)

/-- The part of the validation about `allowed_domains`, for a managed list. -/
def validateAllowedDomains (expansionEnabled : Option Bool)
    (allowedDomains candidates deniedCandidates : List Text) :
    Except NetworkProxyConstraintError Unit :=
  let required := lowercaseSet allowedDomains
  let candidateSet := lowercaseSet candidates
  let overrides := lowercaseSet deniedCandidates
  match expansionEnabled with
  | some true =>
    let missing := required.filter fun entry => !(entry ∈ candidateSet) && !(entry ∈ overrides)
    refuseIf (missing != []) "network.allowed_domains".toList
      "missing managed allowed_domains entries".toList (ext.debugList missing)
  | some false =>
    let expected := required.filter fun entry => !(entry ∈ overrides)
    refuseIf (!sameSet candidateSet expected) "network.allowed_domains".toList
      (ext.debugList candidates) "must match managed allowed_domains".toList
  | none =>
    let managedPatterns := allowedDomains.map (DomainPattern.parseForConstraints ext.urlHost)
    let invalid := candidates.filter fun entry =>
      !managedPatterns.any (·.allows (DomainPattern.parseForConstraints ext.urlHost entry))
    refuseIf (invalid != []) "network.allowed_domains".toList (ext.debugList invalid)
      "subset of managed allowed_domains".toList

/-- The part of the validation about `denied_domains`, for a managed list. -/
def validateDeniedDomains (expansionEnabled : Option Bool) (deniedDomains candidates : List Text) :
    Except NetworkProxyConstraintError Unit :=
  let required := lowercaseSet deniedDomains
  let candidateSet := lowercaseSet candidates
  match expansionEnabled with
  | some false =>
    refuseIf (!sameSet candidateSet required) "network.denied_domains".toList
      (ext.debugList candidates) "must match managed denied_domains".toList
  | _ =>
    let missing := required.filter fun entry => !(entry ∈ candidateSet)
    refuseIf (missing != []) "network.denied_domains".toList
      "missing managed denied_domains entries".toList (ext.debugList missing)

/-- A check that is made only under a constraint. -/
def whenSome {α : Type} (constraint : Option α)
    (validator : α → Except NetworkProxyConstraintError Unit) :
    Except NetworkProxyConstraintError Unit :=
  match constraint with
  | some value => validator value
  | none => .ok ()

/-- `validate_mitm_hook_config` with `invalid_mitm_hook_configuration`. -/
def validateMitmHooks (config : NetworkProxyConfig Rest) :
    Except NetworkProxyConstraintError Unit :=
  match ext.validateMitmHookConfig config with
  | .error message => .error (.invalidValue "network.mitm_hooks".toList message
      "valid MITM hook configuration".toList)
  | .ok () => .ok ()

def validatePolicyAgainstConstraints (config : NetworkProxyConfig Rest)
    (constraints : NetworkProxyConstraints) : Except NetworkProxyConstraintError Unit := do
  let configAllowedDomains := config.allowedDomains.getD []
  let configDeniedDomains := config.deniedDomains.getD []
  validateMitmHooks ext config
  validateNonGlobalWildcardDomainPatterns "network.denied_domains" configDeniedDomains
  validateSwitch "network.enabled" config.enabled (constraints.enabled.getD true)
  whenSome constraints.mode fun maxMode =>
    refuseIf (networkModeRank maxMode < networkModeRank config.mode) "network.mode".toList
      config.mode.debug (maxMode.debug ++ " or more restrictive".toList)
  validateSwitch "network.allow_upstream_proxy" config.allowUpstreamProxy
    (constraints.allowUpstreamProxy.getD true)
  validateSwitch "network.dangerously_allow_non_loopback_proxy"
    config.dangerouslyAllowNonLoopbackProxy
    (constraints.dangerouslyAllowNonLoopbackProxy.getD true)
  validateSwitch "network.dangerously_allow_all_unix_sockets"
    (config.dangerouslyAllowAllUnixSockets.getD false)
    (constraints.dangerouslyAllowAllUnixSockets.getD constraints.allowUnixSockets.isNone)
  validateSwitch "network.allow_local_binding" config.allowsLocalBinding
    (constraints.allowLocalBinding.getD true)
  whenSome constraints.allowedDomains fun allowedDomains => do
    validateNonGlobalWildcardDomainPatterns "network.allowed_domains" allowedDomains
    validateAllowedDomains ext constraints.allowlistExpansionEnabled allowedDomains
      configAllowedDomains configDeniedDomains
  whenSome constraints.deniedDomains fun deniedDomains => do
    validateNonGlobalWildcardDomainPatterns "network.denied_domains" deniedDomains
    validateDeniedDomains ext constraints.denylistExpansionEnabled deniedDomains
      configDeniedDomains
  whenSome constraints.allowUnixSockets fun allowUnixSockets =>
    let invalid := config.allowUnixSockets.filter fun entry => !(entry ∈ allowUnixSockets)
    refuseIf (invalid != []) "network.allow_unix_sockets".toList (ext.debugList invalid)
      "subset of managed allow_unix_sockets".toList

end

/-! ## The compiled state -/

def windowsPathIsAbsolute (path : Text) : Bool :=
  let slash := fun c : Char => c == '\\' || c == '/'
  match path with
  | drive :: ':' :: c :: _ =>
    if drive.isAlpha && slash c then true else rooted slash path
  | _ => rooted slash path
where
  /-- A path that starts with two separators: a verbatim or device path, or a
  server with a share. -/
  rooted (slash : Char → Bool) (path : Text) : Bool :=
    match path with
    | c :: d :: rest =>
      slash c && slash d &&
        (startsWith path ['\\', '\\', '?', '\\'] ||
          (match rest with
            | '.' :: e :: _ => slash e
            | _ => false) ||
          (match rest.splitOnP slash with
            | server :: share :: _ => server != [] && share != []
            | _ => false))
    | _ => false

def socketPathIsAbsolute (platform : Platform) (path : Text) : Bool :=
  startsWith path ['/'] ||
    match platform with
    | .linux | .macos => false
    | .windows | .unknown => windowsPathIsAbsolute path

/-- The `Debug` text of a platform. -/
def Platform.debug : Platform → Text
  | .linux => "Linux".toList
  | .macos => "Macos".toList
  | .windows => "Windows".toList
  | .unknown => "Unknown".toList

/-- `validate_unix_socket_allowlist_paths`, from entry `index` on. -/
def validateUnixSocketPaths (debugText : Text → Text) (executorOs : Platform) :
    ℕ → List Text → Except Text Unit
  | _, [] => .ok ()
  | index, path :: paths =>
    if socketPathIsAbsolute executorOs path && !(path.any (· == '\x00')) then
      validateUnixSocketPaths debugText executorOs (index + 1) paths
    else .error ("invalid network.allow_unix_sockets[".toList ++ Nat.toDigits 10 index
      ++ "]: expected a NUL-free absolute path for ".toList ++ executorOs.debug
      ++ ", got ".toList ++ debugText path)

structure BlockedRequest where
  host : Text
  reason : Text
  client : Option Text
  method : Option Text
  mode : Option NetworkMode
  protocol : Text
  executionId : Option Text
  decision : Option Text
  source : Option Text
  port : Option ℕ
  timestamp : ℤ
  deriving DecidableEq, Repr

/-- `ConfigState`, with the fact that its sets are compiled from its lists. -/
structure ConfigState (Rest Hooks Mitm : Type) where
  executorOs : Platform
  config : NetworkProxyConfig Rest
  brokerageCreatedDefaultAllowlist : Bool
  allowSet : DomainPatternSet
  denySet : DomainPatternSet
  reviewSet : DomainPatternSet
  mitm : Option Mitm
  mitmHooks : Hooks
  constraints : NetworkProxyConstraints
  blocked : List BlockedRequest
  blockedTotal : ℕ
  allowSet_eq : compileAllowlist (config.allowedDomains.getD []) = .ok allowSet
  denySet_eq : compileDenylist (config.deniedDomains.getD []) = .ok denySet
  reviewSet_eq : compileAllowlist config.reviewDomains = .ok reviewSet

section
variable {Rest Hooks Mitm : Type} (ext : Externals Rest Hooks Mitm)

/-- The configuration that `build_config_state` compiles: credential brokerage
switched off by the constraints, or switching the proxy on. -/
def brokeredConfig (config : NetworkProxyConfig Rest) (constraints : NetworkProxyConstraints) :
    NetworkProxyConfig Rest × Bool :=
  let config := if constraints.enabled = some false then { config with credentialBroker := false }
    else config
  let createdProxy := config.credentialBroker && !config.enabled
  let createdDefaultAllowlist := createdProxy && config.allowedDomains.isNone
    && constraints.allowedDomains.isNone
  let config := if createdProxy then { config with enabled := true } else config
  let config := if createdDefaultAllowlist then config.setAllowedDomains [['*']] else config
  (config, createdDefaultAllowlist)

def buildConfigState (config : NetworkProxyConfig Rest) (constraints : NetworkProxyConstraints)
    (executorOs : Platform) : Except Text (ConfigState Rest Hooks Mitm) := do
  let built := brokeredConfig config constraints
  let config := built.1
  validateUnixSocketPaths ext.debugText executorOs 0 config.allowUnixSockets
  ensure (!config.credentialBroker || config.mitm)
    "network.credential_broker requires network.mitm = true".toList
  ensure (config.mitmCa.isNone || config.mitm)
    "network.mitm_ca requires network.mitm = true".toList
  (validateNonGlobalWildcardDomainPatterns "network.denied_domains"
    (config.deniedDomains.getD [])).mapError NetworkProxyConstraintError.message
  match hdeny : compileDenylist (config.deniedDomains.getD []) with
  | .error e => throw e
  | .ok denySet =>
    match hallow : compileAllowlist (config.allowedDomains.getD []) with
    | .error e => throw e
    | .ok allowSet =>
      match hreview : compileAllowlist config.reviewDomains with
      | .error e => throw e
      | .ok reviewSet =>
        let mitmHooks ← ext.compileMitmHooks config
        let mitm ← if config.mitm then
            (ext.newMitmState config.allowUpstreamProxy config.mitmCa).map some
          else pure none
        return {
          executorOs := executorOs
          config := config
          brokerageCreatedDefaultAllowlist := built.2
          allowSet := allowSet
          denySet := denySet
          reviewSet := reviewSet
          mitm := mitm
          mitmHooks := mitmHooks
          constraints := constraints
          blocked := []
          blockedTotal := 0
          allowSet_eq := hallow
          denySet_eq := hdeny
          reviewSet_eq := hreview }

end

/-! ## The two domain lists -/

/-- The effective entries of a list: each is listed and the strongest one for its
pattern, and every listed pattern has one. -/
structure IsEffective (listed effective : List NetworkDomainPermissionEntry) : Prop where
  strongest : ∀ known ∈ effective, known ∈ listed ∧ ∀ entry ∈ listed,
    entry.pattern = known.pattern → entry.permission.rank ≤ known.permission.rank
  complete : ∀ entry ∈ listed, ∃ known ∈ effective, known.pattern = entry.pattern

/-- One more entry: the strongest permission of its pattern stays. -/
theorem IsEffective.recordEntry {listed effective : List NetworkDomainPermissionEntry}
    (h : IsEffective listed effective) (entry : NetworkDomainPermissionEntry) :
    IsEffective (listed ++ [entry]) (recordEntry effective entry) := by
  by_cases hany : effective.any (·.pattern == entry.pattern) = true
  · -- the pattern is known: its entry stays or is replaced by the stronger one
    have hrec : NetworkProxy.recordEntry effective entry = effective.map fun known =>
        if known.pattern = entry.pattern ∧ known.permission.rank < entry.permission.rank then entry
        else known := if_pos hany
    rw [hrec]
    constructor
    · intro known hknown
      obtain ⟨old, hold, rfl⟩ := mem_map.1 hknown
      obtain ⟨hlisted, hmax⟩ := h.strongest old hold
      split_ifs with hreplace
      · refine ⟨by simp, fun other hother heq => ?_⟩
        rcases mem_append.1 hother with hother | hother
        · exact (hmax other hother (heq.trans hreplace.1.symm)).trans hreplace.2.le
        · rw [mem_singleton.1 hother]
      · refine ⟨by simp [hlisted], fun other hother heq => ?_⟩
        rcases mem_append.1 hother with hother | hother
        · exact hmax other hother heq
        · rw [mem_singleton.1 hother] at heq ⊢
          by_contra hlt
          exact hreplace ⟨heq.symm, Nat.lt_of_not_le hlt⟩
    · intro other hother
      have hknown : ∃ known ∈ effective, known.pattern = other.pattern := by
        rcases mem_append.1 hother with hother | hother
        · exact h.complete other hother
        · rw [mem_singleton.1 hother]
          simpa using hany
      obtain ⟨known, hmem, hpattern⟩ := hknown
      refine ⟨_, mem_map_of_mem hmem, ?_⟩
      split_ifs with hreplace
      · exact hreplace.1.symm.trans hpattern
      · exact hpattern
  · -- a new pattern: no listed entry has it
    have hrec : NetworkProxy.recordEntry effective entry = effective ++ [entry] := if_neg hany
    have hnew : ∀ other ∈ listed, other.pattern ≠ entry.pattern := by
      intro other hother heq
      obtain ⟨known, hknown, hpattern⟩ := h.complete other hother
      exact hany (any_eq_true.2 ⟨known, hknown, by simp [hpattern, heq]⟩)
    rw [hrec]
    constructor
    · intro known hknown
      rcases mem_append.1 hknown with hknown | hknown
      · obtain ⟨hlisted, hmax⟩ := h.strongest known hknown
        refine ⟨by simp [hlisted], fun other hother heq => ?_⟩
        rcases mem_append.1 hother with hother | hother
        · exact hmax other hother heq
        · rw [mem_singleton.1 hother] at heq
          exact absurd heq.symm (hnew known hlisted)
      · rw [mem_singleton.1 hknown]
        refine ⟨by simp, fun other hother heq => ?_⟩
        rcases mem_append.1 hother with hother | hother
        · exact absurd heq (hnew other hother)
        · rw [mem_singleton.1 hother]
    · intro other hother
      rcases mem_append.1 hother with hother | hother
      · obtain ⟨known, hknown, hpattern⟩ := h.complete other hother
        exact ⟨known, by simp [hknown], hpattern⟩
      · exact ⟨entry, by simp, by rw [mem_singleton.1 hother]⟩

/-- Every pattern has one effective entry, the strongest one listed. -/
theorem NetworkDomainPermissions.isEffective (domains : NetworkDomainPermissions) :
    IsEffective domains.entries domains.effectiveEntries := by
  -- the entries read so far have the effective entries collected so far
  have hrun : ∀ (rest listed effective : List NetworkDomainPermissionEntry),
      IsEffective listed effective →
        IsEffective (listed ++ rest) (rest.foldl NetworkProxy.recordEntry effective) := by
    intro rest
    induction rest with
    | nil =>
      intro listed effective h
      simpa using h
    | cons entry rest ih =>
      intro listed effective h
      have hstep := ih (listed ++ [entry]) _ (h.recordEntry entry)
      simpa using hstep
  exact hrun domains.entries [] [] ⟨by simp, by simp⟩

section
variable {Rest : Type} (config : NetworkProxyConfig Rest)

open NetworkDomainPermissions

/-- The lists hold the patterns with their effective permission. -/
theorem mem_domainEntries_iff {permission : NetworkDomainPermission} {pattern : Text} :
    pattern ∈ (config.domainEntries permission).getD [] ↔
      ⟨pattern, permission⟩ ∈ (mk config.entries).effectiveEntries := by
  have hget : ∀ patterns : List Text, ((some patterns).filter (· != [])).getD [] = patterns := by
    intro patterns
    cases patterns <;> rfl
  rw [NetworkProxyConfig.domainEntries, NetworkProxyConfig.entries]
  cases config.domains with
  | none => simp [effectiveEntries]
  | some domains =>
    rw [Option.map_some, hget]
    simp only [mem_map, mem_filter, beq_iff_eq]
    constructor
    · rintro ⟨entry, ⟨hmem, rfl⟩, rfl⟩
      exact hmem
    · intro hmem
      exact ⟨⟨pattern, permission⟩, ⟨hmem, rfl⟩, rfl⟩

/-- **The denied patterns** are those listed with `deny`. -/
theorem mem_deniedDomains_iff {pattern : Text} :
    pattern ∈ config.deniedDomains.getD [] ↔ ⟨pattern, .deny⟩ ∈ config.entries := by
  rw [NetworkProxyConfig.deniedDomains, mem_domainEntries_iff]
  have heff := (mk config.entries).isEffective
  constructor
  · intro hmem
    exact (heff.strongest _ hmem).1
  · intro hmem
    obtain ⟨⟨known, permission⟩, hknown, rfl⟩ := heff.complete _ hmem
    have hle := (heff.strongest _ hknown).2 _ hmem rfl
    cases permission with
    | deny => exact hknown
    | allow => exact absurd hle (by simp [NetworkDomainPermission.rank])
    | none => exact absurd hle (by simp [NetworkDomainPermission.rank])

/-- **The allowed patterns** are those listed with `allow` and not with `deny`. -/
theorem mem_allowedDomains_iff {pattern : Text} :
    pattern ∈ config.allowedDomains.getD [] ↔
      ⟨pattern, .allow⟩ ∈ config.entries ∧ ⟨pattern, .deny⟩ ∉ config.entries := by
  rw [NetworkProxyConfig.allowedDomains, mem_domainEntries_iff]
  have heff := (mk config.entries).isEffective
  constructor
  · intro hmem
    obtain ⟨hlisted, hmax⟩ := heff.strongest _ hmem
    refine ⟨hlisted, fun hdeny => absurd (hmax _ hdeny rfl) ?_⟩
    simp [NetworkDomainPermission.rank]
  · rintro ⟨hallow, hdeny⟩
    obtain ⟨⟨known, permission⟩, hknown, rfl⟩ := heff.complete _ hallow
    obtain ⟨hlisted, hmax⟩ := heff.strongest _ hknown
    cases permission with
    | allow => exact hknown
    | deny => exact absurd hlisted hdeny
    | none => exact absurd (hmax _ hallow rfl) (by simp [NetworkDomainPermission.rank])

theorem disjoint_domain_lists :
    List.Disjoint (config.allowedDomains.getD []) (config.deniedDomains.getD []) := by
  intro pattern hallowed hdenied
  exact ((mem_allowedDomains_iff config).1 hallowed).2 ((mem_deniedDomains_iff config).1 hdenied)

end

end NetworkProxy
