/-
# Execution policies (`execpolicy/src/policy.rs`, `rule.rs`)

A policy decides what may be run.  Its rules match prefixes of commands and are stored by
program; a command named by an absolute path is looked up under that path first and, only
if nothing matches there, under the name of the executable.  A snapshot of a policy that
comes from elsewhere is checked against the managed requirements of its destination by
`preservesManagedRequirements`.
-/
import BetterCodex.RustStr

open RustStr List

namespace ExecPolicy

/-! ## Decisions and rules -/

/-- `Decision`, from the weakest to the strictest. -/
inductive Decision where
  | allow
  | prompt
  | promptUser
  | forbidden
  deriving DecidableEq, Repr

/-- The place of a decision in the derived order. -/
def Decision.rank : Decision → ℕ
  | .allow => 0
  | .prompt => 1
  | .promptUser => 2
  | .forbidden => 3

theorem Decision.rank_injective : Function.Injective Decision.rank := by
  intro a b
  cases a <;> cases b <;> simp [Decision.rank]

instance : LinearOrder Decision := LinearOrder.lift' Decision.rank Decision.rank_injective

inductive PatternToken where
  | single (expected : Text)
  | alts (alternatives : List Text)
  deriving DecidableEq, Repr

def PatternToken.alternatives : PatternToken → List Text
  | .single expected => [expected]
  | .alts alternatives => alternatives

def PatternToken.matches : PatternToken → Text → Bool
  | .single expected, token => expected == token
  | .alts alternatives, token => alternatives.any (· == token)

structure PrefixPattern where
  first : Text
  rest : List PatternToken
  deriving DecidableEq, Repr

def PrefixPattern.matchesPrefix (p : PrefixPattern) : List Text → Option (List Text)
  | [] => none
  | first :: args =>
    if args.length < p.rest.length ∨ first ≠ p.first then none
    else if (p.rest.zip args).all fun e => e.1.matches e.2 then
      some ((first :: args).take (p.rest.length + 1))
    else none

/-- `PrefixRule`, the only kind of rule. -/
structure PrefixRule where
  pattern : PrefixPattern
  decision : Decision
  justification : Option Text
  deriving DecidableEq, Repr

inductive RuleMatch (AbsPath : Type) where
  | prefixRuleMatch (matchedPrefix : List Text) (decision : Decision)
      (resolvedProgram : Option AbsPath) (justification : Option Text)
  | heuristicsRuleMatch (command : List Text) (decision : Decision)
  deriving DecidableEq, Repr

variable {AbsPath : Type}

def RuleMatch.decision : RuleMatch AbsPath → Decision
  | .prefixRuleMatch _ decision _ _ => decision
  | .heuristicsRuleMatch _ decision => decision

def RuleMatch.withResolvedProgram (program : AbsPath) : RuleMatch AbsPath → RuleMatch AbsPath
  | .prefixRuleMatch matched decision _ justification =>
    .prefixRuleMatch matched decision (some program) justification
  | other => other

/-- `Rule::matches` of a prefix rule. -/
def PrefixRule.matches (r : PrefixRule) (cmd : List Text) : Option (RuleMatch AbsPath) :=
  (r.pattern.matchesPrefix cmd).map fun matched =>
    .prefixRuleMatch matched r.decision none r.justification

inductive NetworkRuleProtocol where
  | http
  | https
  | socks5Tcp
  | socks5Udp
  deriving DecidableEq, Repr

structure NetworkRule where
  host : Text
  protocol : NetworkRuleProtocol
  decision : Decision
  justification : Option Text
  deriving DecidableEq, Repr

/-! ## Policies -/

/-- What the code uses of `AbsolutePathBuf`: reading an absolute path from a text, and the
last component of a path where it is valid Unicode. -/
class AbsolutePathBuf (AbsPath : Type) where
  tryFrom : Text → Option AbsPath
  fileName : AbsPath → Option Text
  windows : Bool

/-- `Policy`: a multimap of rules by program, the network rules, and the known paths of
executables by name. -/
structure Policy (AbsPath : Type) where
  rulesByProgram : AList fun _ : Text => List PrefixRule
  networkRules : List NetworkRule
  hostExecutablesByName : Finmap fun _ : Text => List AbsPath

def Policy.empty : Policy AbsPath := ⟨∅, [], ∅⟩

/-- `MultiMap::insert`. -/
def insertRule (rules : AList fun _ : Text => List PrefixRule) (program : Text)
    (rule : PrefixRule) : AList fun _ : Text => List PrefixRule :=
  rules.insert program ((rules.lookup program).getD [] ++ [rule])

def upsertDomain (entries : List Text) (host : Text) : List Text :=
  entries.filter (· ≠ host) ++ [host]

/-- One round of the loop in `compiled_network_domains`. -/
def compileNetworkRule (domains : List Text × List Text) (rule : NetworkRule) :
    List Text × List Text :=
  match rule.decision with
  | .allow => (upsertDomain domains.1 rule.host, domains.2.filter (· ≠ rule.host))
  | .forbidden => (domains.1.filter (· ≠ rule.host), upsertDomain domains.2 rule.host)
  | .prompt | .promptUser => domains

/-- `Policy::compiled_network_domains`: the allowed and the denied hosts. -/
def Policy.compiledNetworkDomains (self : Policy AbsPath) : List Text × List Text :=
  self.networkRules.foldl compileNetworkRule ([], [])

def Policy.containsPrefixRule (self : Policy AbsPath) (program : Text) (rule : PrefixRule) : Bool :=
  match self.rulesByProgram.lookup program with
  | some rules => rules.contains rule
  | none => false

/-! ## Matching a command -/

def executableLookupKey (windows : Bool) (raw : Text) : Text :=
  if windows then
    let raw := toAsciiLowercase raw
    let suffixes := [".exe".toList, ".cmd".toList, ".bat".toList, ".com".toList]
    match suffixes.find? (endsWith raw ·) with
    | some suffix => raw.take (raw.length - suffix.length)
    | none => raw
  else raw

section Matching

variable [DecidableEq AbsPath] [AbsolutePathBuf AbsPath]

def executablePathLookupKey (path : AbsPath) : Option Text :=
  (AbsolutePathBuf.fileName path).map
    (executableLookupKey (AbsolutePathBuf.windows AbsPath))

variable (self : Policy AbsPath)

def Policy.hostExecutableRules (path : AbsPath) :
    Option (Text × List PrefixRule) := do
  let basename ← executablePathLookupKey path
  match self.hostExecutablesByName.lookup basename with
  | some paths =>
    if paths.contains path then (self.rulesByProgram.lookup basename).map (basename, ·)
    else none
  | none => (self.rulesByProgram.lookup basename).map (basename, ·)

/-- `Policy::match_exact_rules`; none for an empty command. -/
def Policy.matchExactRules (cmd : List Text) :
    Option (List (RuleMatch AbsPath)) :=
  cmd.head?.map fun first =>
    ((self.rulesByProgram.lookup first).getD []).filterMap (·.matches cmd)

def Policy.matchHostExecutableRules (cmd : List Text) :
    List (RuleMatch AbsPath) :=
  match cmd with
  | [] => []
  | first :: args =>
    match AbsolutePathBuf.tryFrom first with
    | none => []
    | some program =>
      match self.hostExecutableRules program with
      | none => []
      | some (basename, rules) =>
        (rules.filterMap (·.matches (basename :: args))).map (·.withResolvedProgram program)

/-- The rules that match, before heuristics: exact matches, or else those under the name
of the executable if it is to be resolved. -/
def Policy.matchedRules (cmd : List Text)
    (resolveHostExecutables : Bool) : List (RuleMatch AbsPath) :=
  match (self.matchExactRules cmd).filter (· ≠ []) with
  | some matched => matched
  | none => if resolveHostExecutables then self.matchHostExecutableRules cmd else []

def Policy.matchesForCommandWithOptions (cmd : List Text)
    (heuristicsFallback : Option (List Text → Decision)) (resolveHostExecutables : Bool) :
    List (RuleMatch AbsPath) :=
  let matched := self.matchedRules cmd resolveHostExecutables
  match matched, heuristicsFallback with
  | [], some heuristics => [.heuristicsRuleMatch cmd (heuristics cmd)]
  | _, _ => matched

/-- The decision of `Evaluation::from_matches`, the strictest one. -/
def strictest (matched : List (RuleMatch AbsPath)) : Option Decision :=
  (matched.map RuleMatch.decision).max?

/-! ## `preserves_managed_requirements` -/

/-- The arguments at place `i` that both prefixes allow where both apply. -/
def sharedArgumentsAt (shorter longer : List PatternToken) (i : ℕ) : List Text :=
  ((longer[i]?.map PatternToken.alternatives).getD []).filter fun arg =>
    match shorter[i]? with
    | none => true
    | some token => token.alternatives.contains arg

/-- The swap that puts the shorter of two prefixes first. -/
def shorterFirst (a b : List PatternToken) : List PatternToken × List PatternToken :=
  if a.length > b.length then (b, a) else (a, b)

def canWeakenFallback (exact fallback : PrefixRule) (pathRules : List PrefixRule) : Bool :=
  if exact.decision ≥ fallback.decision then false
  else
    let (shorter, longer) := shorterFirst exact.pattern.rest fallback.pattern.rest
    if (List.range shorter.length).any fun i => (sharedArgumentsAt shorter longer i).isEmpty then
      false
    else
      !pathRules.any fun rule =>
        decide (rule.decision ≥ fallback.decision)
          && decide (rule.pattern.rest.length ≤ longer.length)
          && rule.pattern.rest.zipIdx.all fun e =>
            (sharedArgumentsAt shorter longer e.2).all (e.1.alternatives.contains ·)

/-- The check of one program of the snapshot: no rule for an absolute path weakens what the
managed rules say about the executable there. -/
def Policy.shadowsNothing (managed : Policy AbsPath) (program : Text)
    (rules : List PrefixRule) : Bool :=
  match AbsolutePathBuf.tryFrom program with
  | none => true
  | some (path : AbsPath) =>
    match managed.hostExecutableRules path with
    | none => true
    | some (_, fallbackRules) =>
      !rules.any fun rule => !managed.containsPrefixRule program rule &&
        fallbackRules.any fun fallback => canWeakenFallback rule fallback rules

def Policy.preservesManagedRequirements (self managed : Policy AbsPath) : Bool :=
  decide (self.hostExecutablesByName = managed.hostExecutablesByName)
    && (managed.rulesByProgram.entries.all fun e =>
      e.2.all fun rule => self.containsPrefixRule e.1 rule)
    && (self.rulesByProgram.entries.all fun e => managed.shadowsNothing e.1 e.2)
    && managed.compiledNetworkDomains.2.all (self.compiledNetworkDomains.2.contains ·)

end Matching

/-! ## What a rule matches -/

/-- The arguments fit the tokens: there is an allowed argument for each token. -/
def Fits (tokens : List PatternToken) (args : List Text) : Prop :=
  ∀ (i : ℕ) (token : PatternToken), tokens[i]? = some token →
    ∃ arg, args[i]? = some arg ∧ arg ∈ token.alternatives

theorem PatternToken.matches_iff (t : PatternToken) (arg : Text) :
    t.matches arg = true ↔ arg ∈ t.alternatives := by
  cases t with
  | single expected =>
    show (expected == arg) = true ↔ arg ∈ [expected]
    rw [beq_iff_eq, mem_singleton, eq_comm]
  | alts alternatives =>
    simp [PatternToken.matches, PatternToken.alternatives]

theorem fits_cons_iff (t : PatternToken) (tokens : List PatternToken) (args : List Text) :
    Fits (t :: tokens) args ↔
      ∃ arg rest, args = arg :: rest ∧ arg ∈ t.alternatives ∧ Fits tokens rest := by
  constructor
  · intro h
    obtain ⟨arg, harg, hmem⟩ := h 0 t rfl
    cases args with
    | nil => simp at harg
    | cons a rest =>
      obtain rfl : a = arg := by simpa using harg
      refine ⟨a, rest, rfl, hmem, ?_⟩
      intro i token htoken
      exact h (i + 1) token htoken
  · rintro ⟨arg, rest, rfl, hmem, hrest⟩ i token htoken
    cases i with
    | zero =>
      obtain rfl : t = token := by simpa using htoken
      exact ⟨arg, rfl, hmem⟩
    | succ i => exact hrest i token htoken

theorem fits_iff_zip (tokens : List PatternToken) (args : List Text) :
    Fits tokens args ↔
      tokens.length ≤ args.length ∧ (tokens.zip args).all (fun e => e.1.matches e.2) = true := by
  induction tokens generalizing args with
  | nil => simp [Fits]
  | cons t tokens ih =>
    rw [fits_cons_iff]
    cases args with
    | nil => simp
    | cons arg args =>
      simp only [List.cons.injEq, length_cons, zip_cons_cons, all_cons,
        Bool.and_eq_true, PatternToken.matches_iff, Nat.add_le_add_iff_right]
      constructor
      · rintro ⟨_, _, ⟨rfl, rfl⟩, hmem, hfits⟩
        obtain ⟨hlen, hall⟩ := (ih _).1 hfits
        exact ⟨hlen, hmem, hall⟩
      · rintro ⟨hlen, hmem, hall⟩
        exact ⟨arg, args, ⟨rfl, rfl⟩, hmem, (ih args).2 ⟨hlen, hall⟩⟩

/-- A rule matches a command whose arguments fit its pattern. -/
theorem PrefixRule.matches_isSome_iff (r : PrefixRule) (first : Text) (args : List Text) :
    (r.matches (first :: args) : Option (RuleMatch AbsPath)).isSome ↔
      first = r.pattern.first ∧ Fits r.pattern.rest args := by
  rw [PrefixRule.matches, Option.isSome_map, fits_iff_zip, PrefixPattern.matchesPrefix]
  by_cases hlen : args.length < r.pattern.rest.length
  · rw [if_pos (.inl hlen)]
    simp [hlen]
  · by_cases hfirst : first = r.pattern.first
    · rw [if_neg (by simp [hlen, hfirst])]
      by_cases hall : ((r.pattern.rest.zip args).all fun e => e.1.matches e.2) = true
      · rw [if_pos hall]
        simp [hfirst, hall, Nat.le_of_not_lt hlen]
      · rw [if_neg hall]
        simp only [Option.isSome_none, Bool.false_eq_true, false_iff]
        exact fun h => hall h.2.2
    · rw [if_pos (.inr hfirst)]
      simp [hfirst]

theorem PrefixRule.decision_of_matches {r : PrefixRule} {cmd : List Text}
    {m : RuleMatch AbsPath} (h : r.matches cmd = some m) : m.decision = r.decision := by
  obtain ⟨matched, -, rfl⟩ := Option.map_eq_some_iff.1 h
  rfl

@[simp]
theorem RuleMatch.decision_withResolvedProgram (program : AbsPath) (m : RuleMatch AbsPath) :
    (m.withResolvedProgram program).decision = m.decision := by
  cases m <;> rfl

/-! ## The strictest decision -/

theorem exists_of_strictest {matched : List (RuleMatch AbsPath)} {d : Decision}
    (h : strictest matched = some d) : ∃ m ∈ matched, m.decision = d :=
  mem_map.1 (max?_mem h)

theorem le_strictest {matched : List (RuleMatch AbsPath)} {m : RuleMatch AbsPath}
    (h : m ∈ matched) : ∃ d, strictest matched = some d ∧ m.decision ≤ d := by
  have hmem : m.decision ∈ matched.map RuleMatch.decision := mem_map_of_mem h
  cases hmax : (matched.map RuleMatch.decision).max? with
  | none =>
    rw [max?_eq_none_iff] at hmax
    rw [hmax] at hmem
    simp at hmem
  | some d => exact ⟨d, hmax, (max?_eq_some_iff.1 hmax).2 _ hmem⟩

/-! ## Rules that shadow a fallback -/

variable {args : List Text}

theorem fits_shorterFirst {a b : List PatternToken} (ha : Fits a args) (hb : Fits b args) :
    Fits (shorterFirst a b).1 args ∧ Fits (shorterFirst a b).2 args ∧
      (shorterFirst a b).1.length ≤ (shorterFirst a b).2.length := by
  unfold shorterFirst
  by_cases h : a.length > b.length
  · rw [if_pos h]
    exact ⟨hb, ha, h.le⟩
  · rw [if_neg h]
    exact ⟨ha, hb, Nat.le_of_not_lt h⟩

/-- An argument that fits two patterns is one that they share. -/
theorem mem_sharedArgumentsAt {shorter longer : List PatternToken} {i : ℕ}
    (hshorter : Fits shorter args) (hlonger : Fits longer args) (hi : i < longer.length) :
    ∃ arg, args[i]? = some arg ∧ arg ∈ sharedArgumentsAt shorter longer i := by
  have htoken := getElem?_eq_getElem hi
  obtain ⟨arg, harg, hmem⟩ := hlonger i _ htoken
  refine ⟨arg, harg, ?_⟩
  rw [sharedArgumentsAt, htoken, mem_filter]
  refine ⟨hmem, ?_⟩
  cases hs : shorter[i]? with
  | none => rfl
  | some token =>
    obtain ⟨arg', harg', hmem'⟩ := hshorter i token hs
    obtain rfl : arg = arg' := Option.some.inj (harg.symm.trans harg')
    simpa using hmem'

/-- **A rule that cannot weaken a fallback.**  Where both match, the rule itself or another
rule of the path matches and is at least as strict as the fallback. -/
theorem exists_strict_of_not_canWeakenFallback {exact fallback : PrefixRule}
    {pathRules : List PrefixRule} (hexact : exact ∈ pathRules)
    (h : canWeakenFallback exact fallback pathRules = false) (he : Fits exact.pattern.rest args)
    (hf : Fits fallback.pattern.rest args) :
    ∃ r ∈ pathRules, fallback.decision ≤ r.decision ∧ Fits r.pattern.rest args := by
  obtain ⟨hshorter, hlonger, hlen⟩ := fits_shorterFirst he hf
  rw [canWeakenFallback] at h
  by_cases hdecision : exact.decision ≥ fallback.decision
  · exact ⟨exact, hexact, hdecision, he⟩
  rw [if_neg hdecision] at h
  dsimp only at h
  -- the arguments of the command are shared, so there is no place without shared arguments
  have hshared : ((List.range (shorterFirst exact.pattern.rest fallback.pattern.rest).1.length).any
      fun i => (sharedArgumentsAt (shorterFirst exact.pattern.rest fallback.pattern.rest).1
        (shorterFirst exact.pattern.rest fallback.pattern.rest).2 i).isEmpty) = false := by
    rw [any_eq_false]
    intro i hi
    rw [mem_range] at hi
    obtain ⟨arg, -, hmem⟩ := mem_sharedArgumentsAt hshorter hlonger (hi.trans_le hlen)
    rw [List.isEmpty_iff]
    exact ne_nil_of_mem hmem
  rw [hshared, if_neg Bool.false_ne_true, Bool.not_eq_false', any_eq_true] at h
  obtain ⟨r, hr, hprops⟩ := h
  simp only [Bool.and_eq_true, decide_eq_true_eq] at hprops
  obtain ⟨⟨hdec, hrlen⟩, hall⟩ := hprops
  refine ⟨r, hr, hdec, ?_⟩
  intro i token htoken
  have hi : i < r.pattern.rest.length := (List.getElem?_eq_some_iff.1 htoken).1
  obtain ⟨arg, harg, hmem⟩ := mem_sharedArgumentsAt hshorter hlonger (hi.trans_le hrlen)
  have htokenmem : (token, i) ∈ r.pattern.rest.zipIdx := mk_mem_zipIdx_iff_getElem?.2 htoken
  have hargs := all_eq_true.1 (all_eq_true.1 hall _ htokenmem) arg hmem
  exact ⟨arg, harg, by simpa using hargs⟩

/-! ## Keyed policies -/

/-- Rules are stored under the program that their first token names. -/
def Policy.Keyed (self : Policy AbsPath) : Prop :=
  ∀ program rules, self.rulesByProgram.lookup program = some rules →
    ∀ r ∈ rules, r.pattern.first = program

theorem lookup_insertRule (rules : AList fun _ : Text => List PrefixRule) (program k : Text)
    (rule : PrefixRule) : (insertRule rules program rule).lookup k =
      if k = program then some ((rules.lookup program).getD [] ++ [rule])
      else rules.lookup k := by
  by_cases hk : k = program
  · rw [if_pos hk, hk, insertRule, AList.lookup_insert]
  · rw [if_neg hk, insertRule, AList.lookup_insert_ne hk]

/-- Rules stay stored under the program that their first token names. -/
theorem keyed_insertRule {rules : AList fun _ : Text => List PrefixRule} {program : Text}
    {rule : PrefixRule} (hrule : rule.pattern.first = program)
    (h : ∀ k rs, rules.lookup k = some rs → ∀ r ∈ rs, r.pattern.first = k) :
    ∀ k rs, (insertRule rules program rule).lookup k = some rs →
      ∀ r ∈ rs, r.pattern.first = k := by
  intro k rs hk r hr
  rw [lookup_insertRule] at hk
  by_cases hkp : k = program
  · rw [if_pos hkp] at hk
    obtain rfl := Option.some.inj hk
    rcases mem_append.1 hr with hr | hr
    · cases hl : rules.lookup program with
      | none => simp [hl] at hr
      | some old =>
        rw [hl] at hr
        rw [hkp]
        exact h program old hl r hr
    · rw [mem_singleton.1 hr, hrule, hkp]
  · rw [if_neg hkp] at hk
    exact h k rs hk r hr

open Policy

theorem Policy.keyed_empty (AbsPath : Type) : (empty : Policy AbsPath).Keyed := by
  intro program rules h
  simp [empty, AList.lookup_empty] at h

/-! ## Soundness of the check -/

section Soundness

variable [DecidableEq AbsPath] [AbsolutePathBuf AbsPath] {self managed : Policy AbsPath}

omit [DecidableEq AbsPath] [AbsolutePathBuf AbsPath] in
theorem Policy.containsPrefixRule_iff {program : Text} {rule : PrefixRule} :
    self.containsPrefixRule program rule = true ↔
      ∃ rules, self.rulesByProgram.lookup program = some rules ∧ rule ∈ rules := by
  unfold containsPrefixRule
  cases self.rulesByProgram.lookup program with
  | none => simp
  | some rules => simp

/-- What the check establishes. -/
theorem Policy.preservesManagedRequirements_spec
    (h : self.preservesManagedRequirements managed = true) :
    self.hostExecutablesByName = managed.hostExecutablesByName ∧
      (∀ program rules, managed.rulesByProgram.lookup program = some rules →
        ∀ r ∈ rules, ∃ rules', self.rulesByProgram.lookup program = some rules' ∧ r ∈ rules') ∧
      (∀ program rules, self.rulesByProgram.lookup program = some rules →
        managed.shadowsNothing program rules = true) ∧
      ∀ host ∈ managed.compiledNetworkDomains.2, host ∈ self.compiledNetworkDomains.2 := by
  simp only [preservesManagedRequirements, Bool.and_eq_true, decide_eq_true_eq, all_eq_true] at h
  obtain ⟨⟨⟨hhosts, hrules⟩, hshadows⟩, hnetwork⟩ := h
  refine ⟨hhosts, ?_, ?_, fun host hhost => by simpa using hnetwork host hhost⟩
  · intro program rules hlookup r hr
    exact containsPrefixRule_iff.1 (hrules _ (AList.mem_lookup_iff.1 hlookup) r hr)
  · intro program rules hlookup
    exact hshadows _ (AList.mem_lookup_iff.1 hlookup)

/-- The exact matches of a command, as a list. -/
def Policy.exactMatches (self : Policy AbsPath) (first : Text) (args : List Text) :
    List (RuleMatch AbsPath) :=
  ((self.rulesByProgram.lookup first).getD []).filterMap (·.matches (first :: args))

variable {first : Text} {args : List Text} {m : RuleMatch AbsPath}

omit [DecidableEq AbsPath] [AbsolutePathBuf AbsPath] in
theorem Policy.mem_exactMatches :
    m ∈ self.exactMatches first args ↔ ∃ rules, self.rulesByProgram.lookup first = some rules ∧
      ∃ r ∈ rules, r.matches (first :: args) = some m := by
  unfold exactMatches
  cases self.rulesByProgram.lookup first with
  | none => simp
  | some rules => simp [mem_filterMap]

/-- Rules are looked up under the program as written, and only then under its name. -/
theorem Policy.matchedRules_cons (self : Policy AbsPath) (first : Text) (args : List Text)
    (resolve : Bool) :
    self.matchedRules (first :: args) resolve =
      if self.exactMatches first args ≠ [] then self.exactMatches first args
      else if resolve then self.matchHostExecutableRules (first :: args) else [] := by
  have hexact : self.matchExactRules (first :: args) = some (self.exactMatches first args) := rfl
  rw [matchedRules, hexact, Option.filter_some]
  by_cases h : self.exactMatches first args = []
  · simp [h]
  · simp [h]

/-- The matches under the name of the executable. -/
theorem Policy.mem_matchHostExecutableRules :
    m ∈ self.matchHostExecutableRules (first :: args) ↔
      ∃ program basename rules, AbsolutePathBuf.tryFrom first = some program ∧
        self.hostExecutableRules program = some (basename, rules) ∧
        ∃ r ∈ rules, ∃ m₀, r.matches (basename :: args) = some m₀ ∧
          m₀.withResolvedProgram program = m := by
  cases htry : (AbsolutePathBuf.tryFrom first : Option AbsPath) with
  | none => simp [matchHostExecutableRules, htry]
  | some program =>
    cases hrules : self.hostExecutableRules program with
    | none => simp [matchHostExecutableRules, htry, hrules]
    | some e =>
      obtain ⟨basename, rules⟩ := e
      simp only [matchHostExecutableRules, htry, hrules, mem_map, mem_filterMap]
      constructor
      · rintro ⟨m₀, ⟨r, hr, hm₀⟩, rfl⟩
        exact ⟨program, basename, rules, rfl, hrules, r, hr, m₀, hm₀, rfl⟩
      · rintro ⟨program', basename', rules', hprogram, hrules', r, hr, m₀, hm₀, rfl⟩
        obtain rfl := Option.some.inj hprogram
        obtain ⟨rfl, rfl⟩ := Prod.mk.inj (Option.some.inj (hrules.symm.trans hrules'))
        exact ⟨m₀, ⟨r, hr, hm₀⟩, rfl⟩

/-- When a path is looked up by the name of the executable. -/
theorem Policy.hostExecutableRules_eq_some_iff {path : AbsPath} {basename : Text}
    {rules : List PrefixRule} :
    self.hostExecutableRules path = some (basename, rules) ↔
      executablePathLookupKey path = some basename ∧
        (∀ paths, self.hostExecutablesByName.lookup basename = some paths → path ∈ paths) ∧
        self.rulesByProgram.lookup basename = some rules := by
  unfold hostExecutableRules
  cases executablePathLookupKey path with
  | none => simp
  | some name =>
    simp only [Option.bind_eq_bind, Option.bind_some, Option.some.injEq]
    constructor
    · intro h
      cases hpaths : self.hostExecutablesByName.lookup name with
      | none =>
        simp only [hpaths, Option.map_eq_some_iff, Prod.mk.injEq] at h
        obtain ⟨_, hrules, rfl, rfl⟩ := h
        exact ⟨rfl, by simp [hpaths], hrules⟩
      | some paths =>
        simp only [hpaths] at h
        by_cases hmem : paths.contains path = true
        · simp only [hmem, if_true, Option.map_eq_some_iff, Prod.mk.injEq] at h
          obtain ⟨_, hrules, rfl, rfl⟩ := h
          refine ⟨rfl, ?_, hrules⟩
          rintro _ hp
          obtain rfl := Option.some.inj (hpaths.symm.trans hp)
          simpa using hmem
        · rw [if_neg hmem] at h
          contradiction
    · rintro ⟨rfl, hpath, hrules⟩
      cases hpaths : self.hostExecutablesByName.lookup name with
      | none => simp [hrules]
      | some paths => simp [hrules, hpath paths hpaths]

/-- **The fallback is kept.**  Where the managed policy falls back to the name of the
executable, the snapshot has a match that is at least as strict: among its exact matches if
it has any, among the rules for the name otherwise. -/
theorem Policy.exists_strict_fallback (hkeyed : self.Keyed)
    (h : self.preservesManagedRequirements managed = true)
    (hm : m ∈ managed.matchHostExecutableRules (first :: args))
    (hexact : managed.exactMatches first args = []) :
    ∃ m' ∈ self.matchedRules (first :: args) true, m.decision ≤ m'.decision := by
  obtain ⟨hhosts, hrules, hshadows, -⟩ := preservesManagedRequirements_spec h
  obtain ⟨path, basename, fallbacks, hpath, hfallbacks, g, hg, m₀, hm₀, rfl⟩ :=
    mem_matchHostExecutableRules.1 hm
  rw [RuleMatch.decision_withResolvedProgram, PrefixRule.decision_of_matches hm₀]
  rw [matchedRules_cons]
  by_cases hself : self.exactMatches first args = []
  · -- the snapshot falls back as well, and finds the same rule
    rw [if_neg (not_not.2 hself), if_pos rfl]
    obtain ⟨hname, hlisted, hlookup⟩ := hostExecutableRules_eq_some_iff.1 hfallbacks
    obtain ⟨rules', hlookup', hg'⟩ := hrules basename fallbacks hlookup g hg
    refine ⟨m₀.withResolvedProgram path, ?_, ?_⟩
    · refine mem_matchHostExecutableRules.2
        ⟨path, basename, rules', hpath, ?_, g, hg', m₀, hm₀, rfl⟩
      exact hostExecutableRules_eq_some_iff.2 ⟨hname, hhosts ▸ hlisted, hlookup'⟩
    · rw [RuleMatch.decision_withResolvedProgram, PrefixRule.decision_of_matches hm₀]
  · rw [if_pos hself]
    obtain ⟨m₁, hm₁⟩ := exists_mem_of_ne_nil _ hself
    obtain ⟨rules, hlookup, e, he, hmatch⟩ := mem_exactMatches.1 hm₁
    have hefits : Fits e.pattern.rest args :=
      ((e.matches_isSome_iff first args).1 (Option.isSome_of_eq_some hmatch)).2
    have hgfits : Fits g.pattern.rest args :=
      ((g.matches_isSome_iff basename args).1 (Option.isSome_of_eq_some hm₀)).2
    -- the rule is not managed, because the managed policy has no exact match
    have hunmanaged : managed.containsPrefixRule first e = false := by
      rw [Bool.eq_false_iff]
      intro hcontains
      obtain ⟨rules₀, hlookup₀, he₀⟩ := containsPrefixRule_iff.1 hcontains
      have hmem := mem_exactMatches.2 ⟨rules₀, hlookup₀, e, he₀, hmatch⟩
      rw [hexact] at hmem
      exact not_mem_nil hmem
    have hshadow := hshadows first rules hlookup
    rw [shadowsNothing, hpath] at hshadow
    simp only [hfallbacks, Bool.not_eq_true', any_eq_false, Bool.and_eq_true,
      Bool.not_eq_true, not_and, any_eq_false] at hshadow
    have hweak := hshadow e he hunmanaged g hg
    obtain ⟨r, hr, hdecision, hrfits⟩ :=
      exists_strict_of_not_canWeakenFallback he (by simpa using hweak) hefits hgfits
    have hsome : (r.matches (first :: args) : Option (RuleMatch AbsPath)).isSome :=
      (r.matches_isSome_iff first args).2 ⟨(hkeyed first rules hlookup r hr).symm, hrfits⟩
    obtain ⟨m', hm'⟩ := Option.isSome_iff_exists.1 hsome
    refine ⟨m', mem_exactMatches.2 ⟨rules, hlookup, r, hr, hm'⟩, ?_⟩
    rw [PrefixRule.decision_of_matches hm']
    exact hdecision

/-- A checked snapshot has a match as strict as every managed match. -/
theorem Policy.exists_strict_match (hkeyed : self.Keyed)
    (h : self.preservesManagedRequirements managed = true) {cmd : List Text} {resolve : Bool}
    (hm : m ∈ managed.matchedRules cmd resolve) :
    ∃ m' ∈ self.matchedRules cmd resolve, m.decision ≤ m'.decision := by
  cases cmd with
  | nil =>
    cases resolve <;> simp [matchedRules, matchExactRules,
      matchHostExecutableRules] at hm
  | cons first args =>
    rw [matchedRules_cons] at hm
    by_cases hexact : managed.exactMatches first args = []
    · rw [if_neg (not_not.2 hexact)] at hm
      cases resolve with
      | false => simp at hm
      | true => exact exists_strict_fallback hkeyed h (by simpa using hm) hexact
    · -- an exact match of the managed policy is one of the snapshot
      rw [if_pos hexact] at hm
      obtain ⟨rules, hlookup, r, hr, hmatch⟩ := mem_exactMatches.1 hm
      obtain ⟨-, hrules, -⟩ := preservesManagedRequirements_spec h
      obtain ⟨rules', hlookup', hr'⟩ := hrules first rules hlookup r hr
      have hmem : m ∈ self.exactMatches first args :=
        mem_exactMatches.2 ⟨rules', hlookup', r, hr', hmatch⟩
      rw [matchedRules_cons, if_pos (ne_nil_of_mem hmem)]
      exact ⟨m, hmem, le_rfl⟩

/-- **Soundness of the check.**  If a snapshot preserves the managed requirements, then for
every command, with or without resolving executables, the strictest decision of the
managed rules that match it is bounded by the strictest decision of the snapshot's, and
every host that the managed network rules deny is denied by the snapshot's. -/
theorem preserves_managed_requirements_sound (self managed : Policy AbsPath)
    (hkeyed : self.Keyed) (h : self.preservesManagedRequirements managed = true) :
    (∀ cmd resolve d,
      strictest (managed.matchesForCommandWithOptions cmd none resolve) = some d →
        ∃ d', strictest (self.matchesForCommandWithOptions cmd none resolve) = some d' ∧
          d ≤ d') ∧
      ∀ host ∈ managed.compiledNetworkDomains.2, host ∈ self.compiledNetworkDomains.2 := by
  constructor
  · intro cmd resolve d hd
    have hnone : ∀ p : Policy AbsPath,
        p.matchesForCommandWithOptions cmd none resolve = p.matchedRules cmd resolve := by
      intro p
      unfold Policy.matchesForCommandWithOptions
      cases p.matchedRules cmd resolve <;> rfl
    rw [hnone] at hd ⊢
    obtain ⟨m, hm, rfl⟩ := exists_of_strictest hd
    obtain ⟨m', hm', hle⟩ := Policy.exists_strict_match hkeyed h hm
    obtain ⟨d', hd', hle'⟩ := le_strictest hm'
    exact ⟨d', hd', hle.trans hle'⟩
  · exact (Policy.preservesManagedRequirements_spec h).2.2.2

end Soundness

/-- Absolute paths of a Unix host, as texts. -/
structure UnixPath where
  text : Text
  deriving DecidableEq, Repr

instance : AbsolutePathBuf UnixPath where
  tryFrom t := if startsWith t ['/'] then some ⟨t⟩ else none
  fileName p := some (p.text.reverse.takeWhile (· ≠ '/')).reverse
  windows := false

/-- Managed requirements that forbid `rm`. -/
def noRemoval : Policy UnixPath where
  rulesByProgram := insertRule ∅ "rm".toList ⟨⟨"rm".toList, []⟩, .forbidden, none⟩
  networkRules := []
  hostExecutablesByName := ∅

/-- The same with a rule for `/bin/rm -i`. -/
def withPathRule (decision : Decision) : Policy UnixPath :=
  { noRemoval with
    rulesByProgram := insertRule noRemoval.rulesByProgram "/bin/rm".toList
      ⟨⟨"/bin/rm".toList, [.single "-i".toList]⟩, decision, none⟩ }

/-- A rule for `/bin/rm -i` that forbids it as well passes the check. -/
theorem preserves_managed_requirements_sound_pathRule :
    (withPathRule .forbidden).preservesManagedRequirements noRemoval = true ∧
      (∀ cmd resolve d,
        strictest (noRemoval.matchesForCommandWithOptions cmd none resolve) = some d →
          ∃ d', strictest ((withPathRule .forbidden).matchesForCommandWithOptions cmd none resolve)
            = some d' ∧ d ≤ d') ∧
      ∀ host ∈ noRemoval.compiledNetworkDomains.2,
        host ∈ (withPathRule .forbidden).compiledNetworkDomains.2 :=
  ⟨by decide, preserves_managed_requirements_sound (withPathRule .forbidden) noRemoval
    (keyed_insertRule rfl (keyed_insertRule rfl (Policy.keyed_empty UnixPath))) (by decide)⟩

/-- A rule that allows it does not. -/
example : (withPathRule .allow).preservesManagedRequirements noRemoval = false := by decide

end ExecPolicy
