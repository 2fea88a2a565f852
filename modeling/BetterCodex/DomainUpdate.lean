/-
# Adding a host to a domain list

`add_allowed_domain` and `add_denied_domain` take a snapshot of the state, upsert
the normalised host, validate and compile the result, and install it unless the
configuration changed in between, in which case they start over.
-/
import BetterCodex.HostCheck

namespace NetworkProxy

open RustStr IpText NetworkProxyConfig

/-! ## The update -/

inductive DomainListKind where
  | allow
  | deny
  deriving DecidableEq, Repr

namespace DomainListKind

def listName : DomainListKind → Text
  | .allow => "allowlist".toList
  | .deny => "denylist".toList

def constraintField : DomainListKind → Text
  | .allow => "network.allowed_domains".toList
  | .deny => "network.denied_domains".toList

def permission : DomainListKind → NetworkDomainPermission
  | .allow => .allow
  | .deny => .deny

def entries {Rest : Type} (target : DomainListKind) (config : NetworkProxyConfig Rest) : List Text :=
  match target with
  | .allow => config.allowedDomains.getD []
  | .deny => config.deniedDomains.getD []

def oppositeEntries {Rest : Type} (target : DomainListKind) (config : NetworkProxyConfig Rest) :
    List Text :=
  match target with
  | .allow => config.deniedDomains.getD []
  | .deny => config.allowedDomains.getD []

end DomainListKind

/-- An error with its context, the outer text first. -/
structure UpdateError where
  context : Text
  cause : Text
  deriving DecidableEq, Repr

def withContext {α : Type} (context : Text) : Except Text α → Except UpdateError α
  | .ok value => .ok value
  | .error cause => .error ⟨context, cause⟩

section
variable {Rest Hooks Mitm : Type} [DecidableEq Rest] (ext : Externals Rest Hooks Mitm)
  (policy : LocalBindingPolicy)

/-- Whether the list already holds the host and the other list does not. -/
def alreadyListed (target : DomainListKind) (host : Text) (config : NetworkProxyConfig Rest) :
    Bool :=
  (target.entries config).any (normalizeHost · == host)
    && !(target.oppositeEntries config).any (normalizeHost · == host)

/-- One turn of `update_domain_list` from its snapshot: nothing to do, or the state
to install. -/
def prepareUpdate (target : DomainListKind) (host : Text) (snapshot : ConfigState Rest Hooks Mitm) :
    Except UpdateError (Option (ConfigState Rest Hooks Mitm)) :=
  if alreadyListed target host snapshot.config then .ok none
  else do
    let candidate := snapshot.config.upsertDomainPermission host target.permission normalizeHost
    let resolved := policy.resolvedConfig candidate
    withContext (target.constraintField ++ " constrained by managed config".toList)
      ((validatePolicyAgainstConstraints ext resolved snapshot.constraints).mapError
        NetworkProxyConstraintError.message)
    let newState ← withContext ("failed to compile updated network ".toList ++ target.listName)
      (buildConfigState ext candidate snapshot.constraints snapshot.executorOs)
    return some { newState with
      blocked := snapshot.blocked
      blockedTotal := snapshot.blockedTotal }

/-- The install goes ahead only if configuration, constraints and target are those
of the snapshot. -/
def unchangedSince (snapshot guard : ConfigState Rest Hooks Mitm) : Bool :=
  guard.constraints == snapshot.constraints && guard.config == snapshot.config
    && guard.executorOs == snapshot.executorOs

/-- `update_domain_list`, over the states that the read and the write section of
each turn find.  The result is the state left behind by the call's last section;
there is none while the call has not returned. -/
def updateTurns (target : DomainListKind) (host : Text) :
    List (ConfigState Rest Hooks Mitm × ConfigState Rest Hooks Mitm) →
      Option (Except UpdateError (ConfigState Rest Hooks Mitm))
  | [] => none
  | (snapshot, guard) :: views =>
    match prepareUpdate ext policy target host snapshot with
    | .error e => some (.error e)
    | .ok none => some (.ok snapshot)
    | .ok (some newState) =>
      if unchangedSince snapshot guard then some (.ok newState)
      else updateTurns target host views

def updateDomainList (target : DomainListKind) (host : Text)
    (views : List (ConfigState Rest Hooks Mitm × ConfigState Rest Hooks Mitm)) :
    Option (Except UpdateError (ConfigState Rest Hooks Mitm)) :=
  match Host.parse host with
  | .error cause => some (.error ⟨"invalid network host".toList, cause⟩)
  | .ok host => updateTurns ext policy target host.asStr views

def addDeniedDomain (host : Text)
    (views : List (ConfigState Rest Hooks Mitm × ConfigState Rest Hooks Mitm)) :
    Option (Except UpdateError (ConfigState Rest Hooks Mitm)) :=
  updateDomainList ext policy .deny host views

end

/-! ## The lists after an update -/

section
variable {Rest Hooks Mitm : Type}

@[simp] theorem entries_withEntries (config : NetworkProxyConfig Rest)
    (entries : List NetworkDomainPermissionEntry) : (config.withEntries entries).entries = entries := by
  rw [NetworkProxyConfig.withEntries, NetworkProxyConfig.entries]
  cases entries <;> simp

variable {config : NetworkProxyConfig Rest} {host pattern : Text}

theorem mem_denied_upsert :
    pattern ∈ (config.upsertDomainPermission host .deny normalizeHost).deniedDomains.getD [] ↔
      pattern = host ∨
        pattern ∈ config.deniedDomains.getD [] ∧ normalizeHost pattern ≠ normalizeHost host := by
  rw [mem_deniedDomains_iff, mem_deniedDomains_iff, upsertDomainPermission, entries_withEntries]
  simp [or_comm]

/-- Setting the allowed list leaves the denied one alone. -/
theorem mem_denied_setAllowed {patterns : List Text} :
    pattern ∈ (config.setAllowedDomains patterns).deniedDomains.getD [] ↔
      pattern ∈ config.deniedDomains.getD [] := by
  have hpush : ∀ (rest : List Text) (entries : List NetworkDomainPermissionEntry),
      (⟨pattern, .deny⟩ : NetworkDomainPermissionEntry) ∈
        rest.foldl (pushDomainEntry .allow) entries ↔
      (⟨pattern, .deny⟩ : NetworkDomainPermissionEntry) ∈ entries := by
    intro rest
    induction rest with
    | nil => simp
    | cons p rest ih =>
      intro entries
      rw [List.foldl_cons, ih, pushDomainEntry]
      split_ifs <;> simp
  rw [mem_deniedDomains_iff, mem_deniedDomains_iff, setAllowedDomains,
    setDomainEntries, entries_withEntries, hpush]
  simp

theorem mem_denied_brokered {constraints : NetworkProxyConstraints} :
    pattern ∈ (brokeredConfig config constraints).1.deniedDomains.getD [] ↔
      pattern ∈ config.deniedDomains.getD [] := by
  simp only [brokeredConfig]
  split_ifs <;> first | rfl | exact mem_denied_setAllowed

variable {ext : Externals Rest Hooks Mitm} {state : ConfigState Rest Hooks Mitm}

theorem config_of_buildConfigState {constraints : NetworkProxyConstraints} {executorOs : Platform}
    (h : buildConfigState ext config constraints executorOs = .ok state) :
    state.config = (brokeredConfig config constraints).1 := by
  simp only [buildConfigState, bind, bind_ok_iff] at h
  obtain ⟨-, -, -, -, h⟩ := h
  split at h
  · cases h
  · split at h
    · cases h
    · split at h
      · cases h
      · obtain ⟨hooks, -, h⟩ := bind_eq_ok.1 h
        split_ifs at h
        all_goals
          obtain ⟨mitm, -, h⟩ := bind_eq_ok.1 h
          obtain rfl := Except.ok.inj h
          rfl

theorem ok_of_withContext {α : Type} {context : Text} {x : Except Text α} {a : α}
    (h : withContext context x = .ok a) : x = .ok a := by
  cases x with
  | error e => cases h
  | ok b => rw [Except.ok.inj h]

variable {policy : LocalBindingPolicy}

/-- The denied list after adding a host: the host, and what is not the host. -/
theorem denied_of_prepareUpdate {snapshot newState : ConfigState Rest Hooks Mitm}
    (h : prepareUpdate ext policy .deny host snapshot = .ok (some newState)) :
    alreadyListed .deny host snapshot.config = false ∧
    ∀ pattern, pattern ∈ newState.config.deniedDomains.getD [] ↔ pattern = host ∨
      pattern ∈ snapshot.config.deniedDomains.getD [] ∧
        normalizeHost pattern ≠ normalizeHost host := by
  rw [prepareUpdate] at h
  split_ifs at h with hlisted
  · cases h
  refine ⟨by simpa using hlisted, fun pattern => ?_⟩
  obtain ⟨-, -, h⟩ := bind_eq_ok.1 h
  obtain ⟨built, hbuilt, h⟩ := bind_eq_ok.1 h
  obtain rfl := Option.some.inj (Except.ok.inj h)
  change pattern ∈ built.config.deniedDomains.getD [] ↔ _
  rw [config_of_buildConfigState (ok_of_withContext hbuilt), mem_denied_brokered]
  exact mem_denied_upsert

/-- The turn of the loop that a result comes from. -/
theorem turn_of_updateTurns [DecidableEq Rest] {target : DomainListKind}
    {views : List (ConfigState Rest Hooks Mitm × ConfigState Rest Hooks Mitm)}
    (h : updateTurns ext policy target host views = some (.ok state)) :
    ∃ view ∈ views,
      prepareUpdate ext policy target host view.1 = .ok none ∧ state = view.1 ∨
      prepareUpdate ext policy target host view.1 = .ok (some state) := by
  induction views with
  | nil => cases h
  | cons view views ih =>
    obtain ⟨snapshot, guard⟩ := view
    rw [updateTurns] at h
    split at h
    · cases h
    · rename_i hprepare
      obtain rfl := Except.ok.inj (Option.some.inj h)
      exact ⟨(snapshot, guard), by simp, .inl ⟨hprepare, rfl⟩⟩
    · rename_i newState hprepare
      split_ifs at h
      · obtain rfl := Except.ok.inj (Option.some.inj h)
        exact ⟨(snapshot, guard), by simp, .inr hprepare⟩
      · obtain ⟨view, hview, hturn⟩ := ih h
        exact ⟨view, by simp [hview], hturn⟩

/-! ## The host check after the update -/

theorem hostDecision_denied_iff {host : Host} {port : ℕ} {requested : Option Bool}
    {authorization : HostAuthorization} {lookup : Text → ℕ → LookupOutcome} :
    hostDecision policy state host port requested authorization lookup = .blocked .denied ↔
      ∃ p ∈ state.config.deniedDomains.getD [], PatternMatches p host.asStr := by
  rw [← domainsMatch_iff state.denySet_eq]
  simp only [hostDecision]
  split_ifs with hdeny <;> simp [hdeny]

/-- The denied entries that are listed after `add_denied_domain` has returned: those
of the snapshot if the host was listed already, else the new entry and the entries
that do not normalise like it. -/
def ListedAfter (config : NetworkProxyConfig Rest) (host pattern : Text) : Prop :=
  if alreadyListed .deny host config then pattern ∈ config.deniedDomains.getD []
  else pattern = host ∨
    pattern ∈ config.deniedDomains.getD [] ∧ normalizeHost pattern ≠ normalizeHost host

/-- **The host check after `add_denied_domain`.**  Whatever the turns of the call
met, from the snapshot it returned with: the host is denied exactly when one of
the entries then listed matches the normalised host, and no pattern is on both
lists. -/
theorem denied_after_update_iff [DecidableEq Rest] (ext : Externals Rest Hooks Mitm)
    (policy : LocalBindingPolicy) (host : Text)
    (views : List (ConfigState Rest Hooks Mitm × ConfigState Rest Hooks Mitm))
    (state : ConfigState Rest Hooks Mitm)
    (h : addDeniedDomain ext policy host views = some (.ok state)) :
    (∃ view ∈ views,
      (prepareUpdate ext policy .deny (normalizeHost host) view.1 = .ok none ∧ state = view.1 ∨
        prepareUpdate ext policy .deny (normalizeHost host) view.1 = .ok (some state)) ∧
      ∀ (port : ℕ) (requested : Option Bool) (authorization : HostAuthorization)
        (lookup : Text → ℕ → LookupOutcome),
        hostBlockedWithLookup policy state host port requested authorization lookup =
            .blocked .denied ↔
          ∃ pattern, ListedAfter view.1.config (normalizeHost host) pattern ∧
            PatternMatches pattern (normalizeHost host)) ∧
    List.Disjoint (state.config.allowedDomains.getD []) (state.config.deniedDomains.getD []) := by
  refine ⟨?_, disjoint_domain_lists state.config⟩
  rw [addDeniedDomain, updateDomainList] at h
  by_cases hne : normalizeHost host = []
  · rw [Host.parse, dif_pos hne] at h
    cases h
  have hparse : Host.parse host = .ok ⟨normalizeHost host, hne⟩ := dif_neg hne
  rw [hparse] at h
  obtain ⟨view, hview, hturn⟩ := turn_of_updateTurns h
  refine ⟨view, hview, hturn, fun port requested authorization lookup => ?_⟩
  rw [hostBlockedWithLookup, hparse]
  rw [hostDecision_denied_iff]
  refine exists_congr fun pattern => and_congr_left fun _ => ?_
  rw [ListedAfter]
  rcases hturn with ⟨hnone, rfl⟩ | hsome
  · -- nothing to do: the snapshot stays
    have hlisted : alreadyListed .deny (normalizeHost host) view.1.config = true := by
      rw [prepareUpdate] at hnone
      split_ifs at hnone with hlisted
      · exact hlisted
      · obtain ⟨-, -, hrest⟩ := bind_eq_ok.1 hnone
        obtain ⟨built, -, hrest⟩ := bind_eq_ok.1 hrest
        cases hrest
    rw [if_pos hlisted]
  · obtain ⟨hlisted, hdenied⟩ := denied_of_prepareUpdate hsome
    rw [if_neg (by simp [hlisted])]
    exact hdenied pattern

theorem patternMatches_of_reading (h : DomainPattern.reading pattern = .exact host) :
    PatternMatches pattern host := by
  refine .inl ⟨host, ?_, matchesHost_self _⟩
  rw [h]
  simp [DomainPattern.globs]

/-- Hosts that are read back as themselves end up denied: a listed entry matches
them, also when the call found them listed under another spelling. -/
theorem listedAfter_of_stable (hstable : DomainPattern.reading host = .exact host)
    (hentries : ∀ entry ∈ config.deniedDomains.getD [], normalizeHost entry = host →
      DomainPattern.reading entry = .exact host) :
    ∃ pattern, ListedAfter config host pattern ∧ PatternMatches pattern host := by
  by_cases hlisted : alreadyListed .deny host config = true
  · have htarget := (Bool.and_eq_true_iff.1 hlisted).1
    obtain ⟨entry, hentry, hnorm⟩ := List.any_eq_true.1 htarget
    refine ⟨entry, ?_, patternMatches_of_reading (hentries entry hentry (eq_of_beq hnorm))⟩
    rw [ListedAfter, if_pos hlisted]
    exact hentry
  · refine ⟨host, ?_, patternMatches_of_reading hstable⟩
    rw [ListedAfter, if_neg hlisted]
    exact .inl rfl

end

/-- A state that allows every host. -/
def allowAllState : ConfigState Unit Unit Unit :=
  { localhostState with
    config := domainsOnly [⟨['*'], .allow⟩]
    allowSet := ⟨[Utf8.asBytes ['*']]⟩
    denySet := ⟨[]⟩
    allowSet_eq := by decide
    denySet_eq := by decide
    reviewSet_eq := by decide }

theorem exists_ok_of_isSome {ε α : Type} {result : Option (Except ε α)}
    (h : (result.bind Except.toOption).isSome = true) : ∃ a, result = some (.ok a) := by
  match result with
  | none => cases h
  | some (.error e) => cases h
  | some (.ok a) => exact ⟨a, rfl⟩

/-- The theorem at a fresh host in a port-carrying spelling. -/
theorem denied_after_update_example :
    ∃ state, addDeniedDomain plainExternals .defaultFalse "Evil.com.:443".toList
        [(allowAllState, allowAllState)] = some (.ok state) ∧
      hostBlocked .defaultFalse state "Evil.com.:443".toList 443 (fun _ _ => .resolved []) =
        .blocked .denied := by
  have hok : ((addDeniedDomain plainExternals .defaultFalse "Evil.com.:443".toList
      [(allowAllState, allowAllState)]).bind Except.toOption).isSome = true := by decide
  have hnorm : normalizeHost "Evil.com.:443".toList = "evil.com".toList := by decide
  obtain ⟨state, hres⟩ := exists_ok_of_isSome hok
  obtain ⟨⟨view, hview, -, hiff⟩, -⟩ := denied_after_update_iff plainExternals .defaultFalse
    "Evil.com.:443".toList [(allowAllState, allowAllState)] state hres
  rw [List.mem_singleton.1 hview, hnorm] at hiff
  refine ⟨state, hres, (hiff 443 none .requireAllowlist (fun _ _ => .resolved [])).2 ?_⟩
  refine listedAfter_of_stable (by decide) ?_
  rw [show allowAllState.config.deniedDomains.getD [] = [] by decide]
  simp

/-- The brackets hide a port: the normalised host `a:80` is compiled once more, to
`a`, and the host stays allowed. -/
theorem denied_host_still_allowed :
    ((addDeniedDomain plainExternals .defaultFalse "[a:80]".toList
        [(allowAllState, allowAllState)]).bind fun result => result.toOption.map fun state =>
      hostBlocked .defaultFalse state "[a:80]".toList 80
        (fun _ _ => .resolved [.v4 ⟨8, 8, 8, 8⟩])) = some .allowed := by
  decide

end NetworkProxy
