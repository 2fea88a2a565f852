/-
# Which domain patterns cover which

Validation accepts a candidate allowlist when each of its patterns is allowed by
a managed one.  This file says what that buys in terms of the hosts matched, for
patterns in normal form.
-/
import BetterCodex.DomainPattern

namespace NetworkProxy

open RustStr Utf8 List DomainPattern

/-! ## Covering -/

/-- An apex pattern is its domain and the subdomains of it. -/
def DomainPattern.parts : DomainPattern → List DomainPattern
  | .apexAndSubdomains domain => [.exact domain, .subdomainsOnly domain]
  | pattern => [pattern]

/-- Something else than stars stands before the last `.{parent}` of `child`. -/
def hasLabelBefore (child parent : Text) : Bool :=
  !(child.take (child.length - (parent.length + 1))).all (· == '*')

/-- `managed` covers `part`: it allows it, and an exact domain below the managed
one has a proper label in front of it.  (`allows` alone takes the text `.{domain}`
for a subdomain of `domain`.) -/
def DomainPattern.Covers (managed part : DomainPattern) : Prop :=
  managed.allows part = true ∧
    ∀ domain, part = .exact domain →
      domain = managed.domain ∨ hasLabelBefore domain managed.domain = true

variable {pattern : DomainPattern} {host : Text}

theorem DomainPattern.hits_iff_parts :
    pattern.Hits host ↔ ∃ part ∈ pattern.parts, part.Hits host := by
  cases pattern <;> simp [DomainPattern.Hits, parts, globs]

theorem endsWith_iff {s t : Text} : endsWith s t = true ↔ ∃ x, s = x ++ t := by
  unfold endsWith
  rw [isSuffixOf_iff_suffix]
  exact ⟨fun ⟨x, hx⟩ => ⟨x, hx.symm⟩, fun ⟨x, hx⟩ => ⟨x, hx.symm⟩⟩

theorem hasLabelBefore_append (x parent : Text) :
    hasLabelBefore (x ++ '.' :: parent) parent = true ↔ ∃ c ∈ x, c ≠ '*' := by
  have hlen : (x ++ '.' :: parent).length - (parent.length + 1) = x.length := by simp
  rw [hasLabelBefore, hlen, take_left]
  simp

/-! ### Soundness -/

variable {x : Text}

theorem ne_nil_of_matches (hx : ∃ c ∈ x, c ≠ '*') {h : List UInt8}
    (hm : Glob.Matches isStar acceptsByte (asBytes x) h) : h ≠ [] := by
  rintro rfl
  obtain ⟨c, hc, hne⟩ := hx
  rw [Glob.matches_empty_iff, all_eq_true] at hm
  -- a byte of `c` occurs in the pattern, so it would be a star
  obtain ⟨b, hb⟩ := exists_mem_of_ne_nil _ (String.utf8EncodeChar_ne_nil (c := c))
  have hmem : b ∈ asBytes x := mem_flatMap.2 ⟨c, hc, hb⟩
  have hstar : b = UInt8.ofNat '*'.toNat := by simpa [isStar] using hm b hmem
  have hsingle : UInt8.ofNat '*'.toNat ∈ asBytes [c] := by simpa [hstar] using hb
  exact hne (mem_singleton.1 ((mem_asBytes_iff (by decide)).1 hsingle)).symm

/-- The two bytes `?*` match every non-empty run. -/
theorem matches_some_byte_iff {h : List UInt8} :
    Glob.Matches isStar acceptsByte [0x3f, 0x2a] h ↔ h ≠ [] := by
  rw [Glob.matches_letter (by decide)]
  constructor
  · rintro ⟨b, rest, rfl, -, -⟩
    simp
  · intro hne
    obtain ⟨b, rest, rfl⟩ := exists_cons_of_ne_nil hne
    refine ⟨b, rest, rfl, by simp [acceptsByte], ?_⟩
    rw [Glob.matches_star (by decide)]
    exact ⟨rest, [], by simp, by simp⟩

theorem asBytes_subdomainGlob (domain : Text) :
    asBytes (subdomainGlob domain) = [0x3f, 0x2a] ++ asBytes ('.' :: domain) := by
  rw [subdomainGlob, asBytes_cons, asBytes_cons]
  rfl

variable {domain : Text}

theorem matchesHost_subdomainGlob (hx : ∃ c ∈ x, c ≠ '*')
    (h : matchesHost (asBytes (x ++ '.' :: domain)) (asBytes host) = true) :
    matchesHost (asBytes (subdomainGlob domain)) (asBytes host) = true := by
  rw [matchesHost, Glob.globMatch_iff, asBytes_append, Glob.matches_append] at h
  obtain ⟨h1, h2, hsplit, hm1, hm2⟩ := h
  rw [matchesHost, Glob.globMatch_iff, asBytes_subdomainGlob, Glob.matches_append, hsplit]
  exact ⟨h1, h2, rfl, matches_some_byte_iff.2 (ne_nil_of_matches hx hm1), hm2⟩

variable {parent : Text}

/-- A normal domain below another one has that one behind a dot. -/
theorem isSubdomainOrEqual_iff {child : Text} (hc : NormalDomain child) (hp : NormalDomain parent) :
    isSubdomainOrEqual child parent = true ↔ child = parent ∨ ∃ x, child = x ++ '.' :: parent := by
  rw [NormalDomain] at hc hp
  simp only [isSubdomainOrEqual, hc, hp, Bool.or_eq_true, beq_iff_eq, endsWith_iff]

theorem isStrictSubdomain_iff {child : Text} (hc : NormalDomain child) (hp : NormalDomain parent) :
    isStrictSubdomain child parent = true ↔ ∃ x, child = x ++ '.' :: parent := by
  rw [NormalDomain] at hc hp
  simp only [isStrictSubdomain, hc, hp, Bool.and_eq_true, bne_iff_ne, ne_eq, endsWith_iff]
  refine and_iff_right_of_imp ?_
  rintro ⟨x, hx⟩ rfl
  have hlen := congrArg List.length hx
  simp only [length_append, length_cons] at hlen
  omega

theorem domainEq_iff {left right : Text} (hl : NormalDomain left) (hr : NormalDomain right) :
    domainEq left right = true ↔ left = right := by
  rw [NormalDomain] at hl hr
  simp only [domainEq, hl, hr, beq_iff_eq]

/-- The managed pattern stands for the subdomains of its domain. -/
def DomainPattern.hasSubdomains : DomainPattern → Bool
  | .exact _ => false
  | _ => true

/-- The managed pattern stands for its domain itself. -/
def DomainPattern.hasApex : DomainPattern → Bool
  | .subdomainsOnly _ => false
  | _ => true

theorem DomainPattern.hits_of_apex (h : pattern.hasApex = true)
    (hm : matchesHost (asBytes pattern.domain) (asBytes host) = true) : pattern.Hits host := by
  cases pattern with
  | subdomainsOnly domain => simp [hasApex] at h
  | apexAndSubdomains domain => exact ⟨domain, by simp [globs], hm⟩
  | exact domain => exact ⟨domain, by simp [globs], hm⟩

theorem DomainPattern.hits_of_subdomain (h : pattern.hasSubdomains = true)
    (hm : matchesHost (asBytes (subdomainGlob pattern.domain)) (asBytes host) = true) :
    pattern.Hits host := by
  cases pattern with
  | exact domain => simp [hasSubdomains] at h
  | apexAndSubdomains domain => exact ⟨subdomainGlob domain, by simp [globs], hm⟩
  | subdomainsOnly domain => exact ⟨subdomainGlob domain, by simp [globs], hm⟩

variable {managed : DomainPattern}

/-- The patterns that allow a single host. -/
theorem allows_exact_iff (hm : NormalDomain managed.domain) (hd : NormalDomain domain) :
    managed.allows (.exact domain) = true ↔
      (managed.hasApex = true ∧ domain = managed.domain) ∨
        managed.hasSubdomains = true ∧ ∃ x, domain = x ++ '.' :: managed.domain := by
  cases managed with
  | exact parent =>
    simpa [DomainPattern.allows, DomainPattern.hasApex, DomainPattern.hasSubdomains,
      DomainPattern.domain] using domainEq_iff hd hm
  | subdomainsOnly parent =>
    simpa [DomainPattern.allows, DomainPattern.hasApex, DomainPattern.hasSubdomains,
      DomainPattern.domain] using isStrictSubdomain_iff hd hm
  | apexAndSubdomains parent =>
    simpa [DomainPattern.allows, DomainPattern.hasApex, DomainPattern.hasSubdomains,
      DomainPattern.domain] using isSubdomainOrEqual_iff hd hm

/-- The patterns that allow all subdomains of a domain. -/
theorem allows_subdomainsOnly_iff (hm : NormalDomain managed.domain) (hd : NormalDomain domain) :
    managed.allows (.subdomainsOnly domain) = true ↔
      managed.hasSubdomains = true ∧
        (domain = managed.domain ∨ ∃ x, domain = x ++ '.' :: managed.domain) := by
  cases managed with
  | exact parent => simp [DomainPattern.allows, DomainPattern.hasSubdomains]
  | subdomainsOnly parent =>
    simpa [DomainPattern.allows, DomainPattern.hasSubdomains, DomainPattern.domain]
      using isSubdomainOrEqual_iff hd hm
  | apexAndSubdomains parent =>
    simpa [DomainPattern.allows, DomainPattern.hasSubdomains, DomainPattern.domain]
      using isSubdomainOrEqual_iff hd hm

theorem DomainPattern.part_cases {part : DomainPattern} (h : part ∈ pattern.parts) :
    part = .exact pattern.domain ∧ pattern.hasApex = true ∨
      part = .subdomainsOnly pattern.domain ∧ pattern.hasSubdomains = true := by
  cases pattern with
  | apexAndSubdomains domain =>
    rcases mem_cons.1 h with rfl | h
    · exact Or.inl ⟨rfl, rfl⟩
    · exact Or.inr ⟨mem_singleton.1 h, rfl⟩
  | subdomainsOnly domain => exact Or.inr ⟨mem_singleton.1 h, rfl⟩
  | exact domain => exact Or.inl ⟨mem_singleton.1 h, rfl⟩

/-- **Covering is sound.**  Every host of a covered part is a host of the pattern
that covers it. -/
theorem DomainPattern.Covers.hits {part : DomainPattern} (h : managed.Covers part)
    (hpart : part ∈ pattern.parts) (hm : NormalDomain managed.domain)
    (hp : NormalDomain pattern.domain) (hhit : part.Hits host) : managed.Hits host := by
  obtain ⟨hallows, hlabel⟩ := h
  rcases part_cases hpart with ⟨rfl, -⟩ | ⟨rfl, -⟩
  · obtain ⟨glob, hglob, hmatch⟩ := hhit
    obtain rfl : glob = pattern.domain := mem_singleton.1 hglob
    rcases (allows_exact_iff hm hp).1 hallows with ⟨hapex, heq⟩ | ⟨hsub, x, hx⟩
    · exact hits_of_apex hapex (heq ▸ hmatch)
    · -- a strict subdomain: the label in front of it is not empty
      refine hits_of_subdomain hsub (matchesHost_subdomainGlob ?_ (hx ▸ hmatch))
      rcases hlabel _ rfl with heq | hbefore
      · have hlen := congrArg List.length (heq.symm.trans hx)
        simp only [length_append, length_cons] at hlen
        omega
      · rw [hx] at hbefore
        exact (hasLabelBefore_append x managed.domain).1 hbefore
  · obtain ⟨glob, hglob, hmatch⟩ := hhit
    obtain rfl : glob = subdomainGlob pattern.domain := mem_singleton.1 hglob
    obtain ⟨hsub, heq | ⟨x, hx⟩⟩ := (allows_subdomainsOnly_iff hm hp).1 hallows
    · exact hits_of_subdomain hsub (heq ▸ hmatch)
    · refine hits_of_subdomain hsub (matchesHost_subdomainGlob (x := subdomainGlob x) ?_ ?_)
      · exact ⟨'?', by simp [subdomainGlob], by decide⟩
      · rw [hx] at hmatch
        exact hmatch

/-! ### Completeness for domains without wildcards -/

theorem NormalDomain.lowercase (h : NormalDomain domain) : toAsciiLowercase domain = domain := by
  rw [NormalDomain, normalizeDomain] at h
  rw [← h, toAsciiLowercase_idem]

theorem hits_exact_iff (hp : Plain domain) (hn : NormalDomain domain) :
    (exact domain).Hits host ↔ toAsciiLowercase host = domain := by
  simp only [DomainPattern.Hits, globs, mem_singleton, exists_eq_left,
    matchesHost_plain hp, hn.lowercase]
  exact eq_comm

/-- The hosts of a pattern for subdomains. -/
theorem hits_subdomainsOnly_iff (hp : Plain domain) (hn : NormalDomain domain) :
    (subdomainsOnly domain).Hits host ↔
      ∃ x, x ≠ [] ∧ toAsciiLowercase host = x ++ '.' :: domain := by
  have hplain : Plain ('.' :: domain) := ⟨by simp [hp.1], by simp [hp.2]⟩
  have hlower : toAsciiLowercase ('.' :: domain) = '.' :: domain := by
    have hrest := hn.lowercase
    rw [toAsciiLowercase] at hrest ⊢
    rw [map_cons, hrest]
    rfl
  simp only [DomainPattern.Hits, globs, mem_singleton, exists_eq_left,
    matchesHost, Glob.globMatch_iff, asBytes_subdomainGlob, Glob.matches_append,
    matches_some_byte_iff, matches_plain_iff hplain, hlower]
  constructor
  · rintro ⟨h1, h2, hsplit, hne, hm⟩
    have hbytes : asBytes (toAsciiLowercase host) =
        h1.map lowercaseByte ++ asBytes ('.' :: domain) := by
      rw [← map_lowercaseByte_asBytes, hsplit, map_append, hm]
    obtain ⟨x, hx, hh1⟩ := asBytes_eq_append hbytes
    refine ⟨x, ?_, hx⟩
    rintro rfl
    exact hne (map_eq_nil_iff.1 hh1)
  · rintro ⟨x, hne, hx⟩
    obtain ⟨h1, h2, rfl, hh1, hh2⟩ := map_eq_append_iff.1 hx
    refine ⟨asBytes h1, asBytes h2, asBytes_append h1 h2, ?_, ?_⟩
    · intro hnil
      obtain rfl : h1 = [] := asBytes_injective hnil
      exact hne hh1.symm
    · rw [map_lowercaseByte_asBytes, ← hh2]
      rfl

/-- The text `zz…z.{domain}`: a subdomain with a long label. -/
def farSubdomain (length : ℕ) (domain : Text) : Text :=
  List.replicate (length + 1) 'z' ++ '.' :: domain

theorem farSubdomain_lowercase (hn : NormalDomain domain) (length : ℕ) :
    toAsciiLowercase (farSubdomain length domain) = farSubdomain length domain := by
  have hrest := hn.lowercase
  rw [toAsciiLowercase] at hrest ⊢
  rw [farSubdomain, map_append, map_replicate, map_cons, hrest]
  rfl

/-- A far subdomain lies below the parents of its domain only. -/
theorem suffix_of_farSubdomain {length : ℕ} (h : farSubdomain length domain = x ++ '.' :: parent) :
    domain = parent ∨ ∃ y, domain = y ++ '.' :: parent := by
  rcases append_eq_append_iff.1 h with ⟨a, -, ha⟩ | ⟨a, hz, ha⟩
  · cases a with
    | nil => exact Or.inl (List.cons.inj ha).2
    | cons c a => exact Or.inr ⟨a, (List.cons.inj ha).2⟩
  · cases a with
    | nil => exact Or.inl (List.cons.inj ha).2.symm
    | cons c a =>
      -- the dot before `parent` would lie within the label
      have hc : c = '.' := (List.cons.inj ha).1.symm
      have hmem : c ∈ List.replicate (length + 1) 'z' := by simp [hz]
      exact absurd (hc ▸ eq_of_mem_replicate hmem) (by decide)

/-- The hosts of a pattern: its domain, its subdomains, or both. -/
theorem DomainPattern.hits_iff (hp : Plain pattern.domain) (hn : NormalDomain pattern.domain) :
    pattern.Hits host ↔ (pattern.hasApex = true ∧ toAsciiLowercase host = pattern.domain) ∨
      pattern.hasSubdomains = true ∧
        ∃ x, x ≠ [] ∧ toAsciiLowercase host = x ++ '.' :: pattern.domain := by
  cases pattern with
  | exact domain =>
    simpa [DomainPattern.hasApex, DomainPattern.hasSubdomains, DomainPattern.domain]
      using hits_exact_iff hp hn
  | subdomainsOnly domain =>
    simpa [DomainPattern.hasApex, DomainPattern.hasSubdomains, DomainPattern.domain]
      using hits_subdomainsOnly_iff hp hn
  | apexAndSubdomains domain =>
    rw [DomainPattern.hits_iff_parts]
    simpa [DomainPattern.parts, DomainPattern.hasApex, DomainPattern.hasSubdomains,
      DomainPattern.domain] using or_congr (hits_exact_iff hp hn) (hits_subdomainsOnly_iff hp hn)

/-- Each part of each candidate is covered by some managed pattern. -/
def CoveredBy (managed candidates : List DomainPattern) : Prop :=
  ∀ candidate ∈ candidates, ∀ part ∈ candidate.parts, ∃ m ∈ managed, m.Covers part

/-- A list of patterns matches a host when one of them does. -/
def AnyHits (patterns : List DomainPattern) (host : Text) : Prop := ∃ p ∈ patterns, p.Hits host

/-- A covered list matches no host beyond the managed list. -/
theorem CoveredBy.anyHits {managed candidates : List DomainPattern}
    (h : CoveredBy managed candidates) (hm : ∀ m ∈ managed, NormalDomain m.domain)
    (hc : ∀ c ∈ candidates, NormalDomain c.domain) (hhit : AnyHits candidates host) :
    AnyHits managed host := by
  obtain ⟨candidate, hmem, hhit⟩ := hhit
  obtain ⟨part, hpart, hhit⟩ := hits_iff_parts.1 hhit
  obtain ⟨m, hmanaged, hcovers⟩ := h candidate hmem part hpart
  exact ⟨m, hmanaged, hcovers.hits hpart (hm m hmanaged) (hc candidate hmem) hhit⟩

theorem hasLabelBefore_of_plain (hx : x ≠ []) (hp : Plain (x ++ '.' :: parent)) :
    hasLabelBefore (x ++ '.' :: parent) parent = true := by
  obtain ⟨c, hc⟩ := exists_mem_of_ne_nil x hx
  refine (hasLabelBefore_append x parent).2 ⟨c, hc, ?_⟩
  rintro rfl
  exact hp.1 (by simp [hc])

/-- **Covering is complete for plain domains.**  If a list of plain patterns
matches nothing beyond the managed list, its parts are covered one by one. -/
theorem coveredBy_of_anyHits {managed candidates : List DomainPattern}
    (hm : ∀ m ∈ managed, Plain m.domain ∧ NormalDomain m.domain)
    (hc : ∀ c ∈ candidates, Plain c.domain ∧ NormalDomain c.domain)
    (h : ∀ host, AnyHits candidates host → AnyHits managed host) :
    CoveredBy managed candidates := by
  intro candidate hmem part hpart
  obtain ⟨hplain, hnormal⟩ := hc candidate hmem
  rcases part_cases hpart with ⟨rfl, hapex⟩ | ⟨rfl, hsub⟩
  · -- the domain itself is a host of the candidate
    obtain ⟨m, hmanaged, hhit⟩ := h candidate.domain
      ⟨candidate, hmem, (hits_iff hplain hnormal).2 (Or.inl ⟨hapex, hnormal.lowercase⟩)⟩
    obtain ⟨hmplain, hmnormal⟩ := hm m hmanaged
    refine ⟨m, hmanaged, ?_⟩
    rw [hits_iff hmplain hmnormal, hnormal.lowercase] at hhit
    rcases hhit with ⟨hmapex, heq⟩ | ⟨hmsub, x, hx, heq⟩
    · refine ⟨(allows_exact_iff hmnormal hnormal).2 (Or.inl ⟨hmapex, heq⟩), ?_⟩
      rintro domain ⟨rfl⟩
      exact Or.inl heq
    · refine ⟨(allows_exact_iff hmnormal hnormal).2 (Or.inr ⟨hmsub, x, heq⟩), ?_⟩
      rintro domain ⟨rfl⟩
      right
      rw [heq] at hplain ⊢
      exact hasLabelBefore_of_plain hx hplain
  · -- a subdomain whose label is longer than every managed domain
    let bound := (managed.map fun m => m.domain.length).sum
    have hfar := farSubdomain_lowercase hnormal bound
    obtain ⟨m, hmanaged, hhit⟩ := h (farSubdomain bound candidate.domain)
      ⟨candidate, hmem, (hits_iff hplain hnormal).2
        (Or.inr ⟨hsub, List.replicate (bound + 1) 'z', by simp, hfar⟩)⟩
    obtain ⟨hmplain, hmnormal⟩ := hm m hmanaged
    refine ⟨m, hmanaged, ?_, fun domain hdomain => by cases hdomain⟩
    rw [hits_iff hmplain hmnormal, hfar] at hhit
    rcases hhit with ⟨-, heq⟩ | ⟨hmsub, x, -, heq⟩
    · have hle : m.domain.length ≤ bound :=
        single_le_sum (by simp) _ (mem_map_of_mem hmanaged)
      have hlen := congrArg List.length heq
      simp only [farSubdomain, length_append, length_replicate, length_cons] at hlen
      omega
    · exact (allows_subdomainsOnly_iff hmnormal hnormal).2 ⟨hmsub, suffix_of_farSubdomain heq⟩

end NetworkProxy
