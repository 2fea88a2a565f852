/-
# Spellings of one IP address

Patterns are compared with hosts as text, after normalisation.  Two spellings of
one address (compressed or zero-padded IPv6, for example) are therefore one host
for the check exactly when normalisation gives them the same text.
-/
import BetterCodex.DomainUpdate

namespace NetworkProxy

open RustStr IpText Option

/-! ## Literals as patterns -/

/-- The characters that mean something in a list entry. -/
def patternSyntax : List Char := ['*', '?', '%', '[', ']', '\x7b', '\x7d', '\\', '/']

theorem isIpChar_plain {c : Char} (h : IsIpChar c) :
    isWhitespace c = false ∧ c ∉ patternSyntax := by
  have hascii : c.toNat < 128 := by
    rcases h with hdigit | rfl | rfl
    · by_contra hbig
      have hle : ∀ d : Char, d.toNat < 128 → ¬ c ≤ d := by
        intro d hd hcd
        have hnat : c.toNat ≤ d.toNat := hcd
        omega
      have hnone : toDigit 16 c = none := by
        simp [toDigit, hle '9' (by decide), hle 'z' (by decide), hle 'Z' (by decide)]
      rw [isDigit, hnone] at hdigit
      cases hdigit
    · decide
    · decide
  have hall : ∀ n : Fin 128, (isDigit 16 (Char.ofNat n) = true ∨ Char.ofNat n = '.' ∨
      Char.ofNat n = ':') → isWhitespace (Char.ofNat n) = false ∧ Char.ofNat n ∉ patternSyntax := by
    decide
  have hc := hall ⟨c.toNat, hascii⟩
  rw [Char.ofNat_toNat] at hc
  exact hc h

/-- A normalised host that is an address. -/
structure IsLiteral (literal : Text) : Prop where
  parses : (parseIpAddr literal).isSome = true
  lowercase : toAsciiLowercase literal = literal
  noDot : literal.getLast? ≠ some '.'

theorem isLiteral_normalizeHost {host : Text} {ip : IpAddr}
    (h : parseIpAddr (normalizeHost host) = some ip) : IsLiteral (normalizeHost host) where
  parses := by rw [h]; rfl
  lowercase := normalizeHost_lowercase host
  noDot := normalizeHost_getLast host

namespace IsLiteral

variable {literal : Text} (h : IsLiteral literal)
include h

theorem chars : ∀ c ∈ literal, IsIpChar c := by
  obtain ⟨ip, hip⟩ := isSome_iff_exists.1 h.parses
  exact parseIpAddr_chars hip

theorem not_mem {c : Char} (hc : c ∈ patternSyntax) : c ∉ literal :=
  fun hmem => (isIpChar_plain (h.chars c hmem)).2 hc

theorem plain : Plain literal := ⟨h.not_mem (by decide), h.not_mem (by decide)⟩

theorem blank_free : ∀ c ∈ literal, isWhitespace c = false :=
  fun c hc => (isIpChar_plain (h.chars c hc)).1

theorem ne_nil : literal ≠ [] := by
  rintro rfl
  exact absurd h.parses (by decide)

theorem normalDomain : NormalDomain literal := by
  rw [NormalDomain, normalizeDomain, trimEndMatches_eq_self_iff.2 h.noDot, h.lowercase]

/-- A literal is a fixed point of the normaliser behind brackets and ports. -/
theorem normalizeDns : normalizeDnsHostOrIpLiteral literal = literal := by
  simp only [normalizeDnsHostOrIpLiteral, h.lowercase, trimEndMatches_eq_self_iff.2 h.noDot,
    normalizeIpLiteral, h.parses, if_true, getD_some]

theorem unscoped : unscopedIpLiteral literal = none := by
  have hscope : '%' ∉ literal := h.not_mem (by decide)
  rw [unscopedIpLiteral, splitOnce_char_eq_none hscope]

end IsLiteral

/-- The list entry for a literal: IPv6 literals in brackets, so that their colons
are not taken for a port. -/
def literalEntry (literal : Text) : Text :=
  if (parseIpv6Addr literal).isSome then '[' :: literal ++ [']'] else literal

variable {literal : Text}

/-- Trimming and the markers leave the entry of a literal alone. -/
theorem IsLiteral.entry_shape (h : IsLiteral literal) :
    trim (literalEntry literal) = literalEntry literal ∧
      stripPrefix apexMarker (literalEntry literal) = none ∧
      stripPrefix subdomainMarker (literalEntry literal) = none := by
  have hhead : ∀ c rest, literalEntry literal = c :: rest → c ≠ '*' := by
    intro c rest heq
    rw [literalEntry] at heq
    split_ifs at heq
    · rw [← (List.cons.inj heq).1]
      decide
    · rintro rfl
      exact h.plain.1 (by simp [heq])
  have hstrip : ∀ p, stripPrefix ('*' :: p) (literalEntry literal) = none := by
    intro p
    rw [eq_none_iff_forall_ne_some]
    intro rest hrest
    exact hhead _ _ (stripPrefix_eq_some_iff.1 hrest) rfl
  refine ⟨trim_eq_self_of_forall ?_, hstrip _, hstrip _⟩
  rw [literalEntry]
  split_ifs
  · intro c hc
    rcases List.mem_cons.1 hc with rfl | hc
    · decide
    · rcases List.mem_append.1 hc with hc | hc
      · exact h.blank_free c hc
      · rw [List.mem_singleton.1 hc]
        decide
  · exact h.blank_free

/-- The entry of a literal reads back as the literal. -/
theorem IsLiteral.normalizeHost_entry (h : IsLiteral literal) :
    normalizeHost (literalEntry literal) = literal := by
  rw [normalizeHost_eq, h.entry_shape.1]
  have hpart : hostPart (literalEntry literal) = literal := by
    have hopen : '[' ∉ literal := h.not_mem (by decide)
    have hclose : ']' ∉ literal := h.not_mem (by decide)
    rw [literalEntry]
    split_ifs with hv6
    · have hbracketed : bracketed ('[' :: literal ++ [']']) = some literal := by
        have hstrip : stripPrefix ['['] ('[' :: literal ++ [']']) = some (literal ++ [']']) :=
          stripPrefix_append ['['] (literal ++ [']'])
        rw [bracketed, hstrip, bind_some, splitOnce_char hclose []]
        rfl
      rw [hostPart, hbracketed]
    · -- an IPv4 literal has neither brackets nor colons
      obtain ⟨ip, hip⟩ := isSome_iff_exists.1 h.parses
      have hchars := (parseIpAddr_cases hip).resolve_right (by
        rintro ⟨ip6, hip6⟩
        exact hv6 (by simp [hip6]))
      have hcolon : literal.count ':' = 0 := by
        rw [List.count_eq_zero]
        intro hm
        exact absurd (hchars ':' hm) (by rintro (hd | hd) <;> exact absurd hd (by decide))
      have hbracketed : bracketed literal = none := by
        rw [eq_none_iff_forall_ne_some]
        intro inner hinner
        obtain ⟨suffix, heq⟩ := bracketed_eq_some hinner
        exact hopen (by simp [heq])
      rw [hostPart, hbracketed]
      simp [hcolon]
  rw [hpart, h.normalizeDns]

/-- The matcher reads the entry of a literal as that exact host. -/
theorem IsLiteral.reading_entry (h : IsLiteral literal) :
    DomainPattern.reading (literalEntry literal) = .exact literal := by
  obtain ⟨htrim, hapex, hsub⟩ := h.entry_shape
  simp only [DomainPattern.reading, htrim, hapex, hsub, h.normalizeHost_entry]

theorem IsLiteral.mem_entry (h : IsLiteral literal) {c : Char} (hc : c ∈ literalEntry literal) :
    c = '[' ∨ c = ']' ∨ IsIpChar c := by
  rw [literalEntry] at hc
  split_ifs at hc
  · rcases List.mem_cons.1 hc with hc | hc
    · exact .inl hc
    · rcases List.mem_append.1 hc with hc | hc
      · exact .inr (.inr (h.chars c hc))
      · exact .inr (.inl (List.mem_singleton.1 hc))
  · exact .inr (.inr (h.chars c hc))

/-- The brackets of an entry are those of an IPv6 literal. -/
theorem IsLiteral.bracketsSupported_entry (h : IsLiteral literal)
    (hmem : '[' ∈ literalEntry literal ∨ ']' ∈ literalEntry literal) :
    bracketsSupported (literalEntry literal) = true := by
  have hopen : '[' ∉ literal := h.not_mem (by decide)
  have hclose : ']' ∉ literal := h.not_mem (by decide)
  rw [literalEntry] at hmem ⊢
  split_ifs at hmem ⊢ with hv6
  · have hcut : (stripPrefix ['['] ('[' :: literal ++ [']'])).bind (splitOnce [']']) =
        some (literal, []) := by
      have hstrip : stripPrefix ['['] ('[' :: literal ++ [']']) = some (literal ++ [']']) :=
        stripPrefix_append ['['] (literal ++ [']'])
      rw [hstrip, bind_some, splitOnce_char hclose []]
    have hscope : literal.takeWhile (· != '%') = literal := by
      rw [List.takeWhile_eq_self_iff]
      intro c hc
      have hne : c ≠ '%' := fun heq => h.not_mem (by decide) (heq ▸ hc)
      simpa using hne
    simp only [bracketsSupported, hcut, h.normalizeDns, hscope, hv6]
    have hnone : literal.any (fun c => c == '[' || c == ']') = false := by
      rw [List.any_eq_false]
      intro c hc
      have hneOpen : c ≠ '[' := fun heq => hopen (heq ▸ hc)
      have hneClose : c ≠ ']' := fun heq => hclose (heq ▸ hc)
      simp [hneOpen, hneClose]
    simp [hnone]
  · rcases hmem with hmem | hmem
    · exact absurd hmem hopen
    · exact absurd hmem hclose

/-- A literal, in brackets if needed, is a valid pattern. -/
theorem IsLiteral.compilable_entry (h : IsLiteral literal) :
    Compilable .reject (literalEntry literal) := by
  obtain ⟨htrim, hapex, hsub⟩ := h.entry_shape
  have hstar : ¬ literalEntry literal = ['*'] := by
    intro heq
    have := h.normalizeHost_entry
    rw [heq] at this
    exact h.plain.1 (this ▸ by decide)
  have hpattern : normalizePattern (literalEntry literal) = literal := by
    simp only [normalizePattern, htrim, hapex, hsub, hstar, if_false, h.normalizeHost_entry]
  have hexpand : expandDomainPattern (normalizePattern (literalEntry literal)) = [literal] := by
    rw [hpattern]
    refine expandDomainPattern_exact h.blank_free ?_ ?_
    · rintro ⟨rest, hrest⟩
      exact h.plain.1 (by simp [← hrest, apexMarker])
    · rintro ⟨rest, hrest⟩
      exact h.plain.1 (by simp [← hrest, subdomainMarker])
  have hhost : patternHost (trim (literalEntry literal)) = literalEntry literal := by
    simp [patternHost, htrim, hapex, hsub]
  refine ⟨checkPattern_ok_iff.2 ⟨fun _ => ?_, ?_, ?_, ?_, ?_⟩, ?_⟩
  · rw [isGlobalWildcardDomainPattern, hexpand]
    have hne : literal ≠ ['*'] := fun heq => h.plain.1 (by simp [heq])
    simp [hne]
  · rw [htrim]
    intro c hc
    rcases h.mem_entry hc with rfl | rfl | hip
    · decide
    · decide
    · have hne : ∀ d ∈ patternSyntax, c ≠ d :=
        fun d hd heq => (isIpChar_plain hip).2 (heq ▸ hd)
      exact ⟨hne _ (by decide), hne _ (by decide), hne _ (by decide), hne _ (by decide)⟩
  · rw [htrim]
    intro c hc
    rcases h.mem_entry hc with rfl | rfl | hip
    · decide
    · decide
    · exact (isIpChar_plain hip).1
  · rw [hhost, eq_none_iff_forall_ne_some]
    rintro ⟨before, rest⟩ hcut
    have hstar : '*' ∈ literalEntry literal := by simp [splitOnce_eq_some hcut]
    rcases h.mem_entry hstar with heq | heq | hip
    · exact absurd heq (by decide)
    · exact absurd heq (by decide)
    · exact not_isIpChar_star hip
  · rw [hhost]
    exact h.bracketsSupported_entry
  · rw [hexpand]
    simp [h.ne_nil.symm]

/-! ## Decisions on spellings -/

section
variable {Rest Hooks Mitm : Type}

/-- The decision depends on the normalised host only. -/
theorem decision_of_normalizeHost_eq {host host' : Text}
    (h : normalizeHost host = normalizeHost host') (policy : LocalBindingPolicy)
    (state : ConfigState Rest Hooks Mitm) (port : ℕ) (requested : Option Bool)
    (authorization : HostAuthorization) (lookup : Text → ℕ → LookupOutcome) :
    hostBlockedWithLookup policy state host port requested authorization lookup =
      hostBlockedWithLookup policy state host' port requested authorization lookup := by
  have hparse : Host.parse host = Host.parse host' := by
    simp only [Host.parse, h]
  rw [hostBlockedWithLookup, hostBlockedWithLookup, hparse]

end

/-- A configuration whose only setting is one denied pattern. -/
def denyOnly {Rest : Type} (rest : Rest) (pattern : Text) : NetworkProxyConfig Rest :=
  { domainsOnly [⟨pattern, .deny⟩] with rest }

/-- There is a state that denies exactly one literal. -/
theorem exists_state_denying {Rest Hooks Mitm : Type} [Inhabited Rest] [Inhabited Hooks]
    (h : IsLiteral literal) :
    ∃ state : ConfigState Rest Hooks Mitm,
      state.config.deniedDomains.getD [] = [literalEntry literal] := by
  have hdenied : (denyOnly (default : Rest) (literalEntry literal)).deniedDomains.getD [] =
      [literalEntry literal] := rfl
  have hentries : ∀ p ∈ [literalEntry literal], Compilable .reject p := by
    simpa using h.compilable_entry
  obtain ⟨denySet, hset⟩ := new_ok hentries
  refine ⟨{
    executorOs := .linux
    config := denyOnly default (literalEntry literal)
    brokerageCreatedDefaultAllowlist := false
    allowSet := ⟨[]⟩
    denySet := denySet
    reviewSet := ⟨[]⟩
    mitm := none
    mitmHooks := default
    constraints := unconstrained
    blocked := []
    blockedTotal := 0
    allowSet_eq := rfl
    denySet_eq := by rw [hdenied]; exact hset
    reviewSet_eq := rfl }, hdenied⟩

theorem patternMatches_entry_iff {host : Text} (hl : IsLiteral literal) (hh : IsLiteral host) :
    PatternMatches (literalEntry literal) host ↔ host = literal := by
  rw [PatternMatches, hl.reading_entry, hh.unscoped, hits_exact_iff hl.plain hl.normalDomain,
    hh.lowercase]
  simp

/-- **Spellings of one address.**  The check gives two spellings of one address the
same decision in every state exactly when normalisation gives them the same
text. -/
theorem same_decision_iff {Rest Hooks Mitm : Type} [Inhabited Rest] [Inhabited Hooks]
    (host host' : Text) (ip : IpAddr)
    (h : parseIpAddr (normalizeHost host) = some ip)
    (h' : parseIpAddr (normalizeHost host') = some ip) :
    (∀ (policy : LocalBindingPolicy) (state : ConfigState Rest Hooks Mitm) (port : ℕ)
      (requested : Option Bool) (authorization : HostAuthorization)
      (lookup : Text → ℕ → LookupOutcome),
      hostBlockedWithLookup policy state host port requested authorization lookup =
        hostBlockedWithLookup policy state host' port requested authorization lookup) ↔
    normalizeHost host = normalizeHost host' := by
  refine ⟨fun hsame => ?_, fun heq policy state port requested authorization lookup =>
    decision_of_normalizeHost_eq heq policy state port requested authorization lookup⟩
  have hl := isLiteral_normalizeHost h
  have hl' := isLiteral_normalizeHost h'
  -- deny the first spelling: the second one is denied as well
  obtain ⟨state, hdenied⟩ : ∃ state : ConfigState Rest Hooks Mitm,
      state.config.deniedDomains.getD [] = [literalEntry (normalizeHost host)] :=
    exists_state_denying hl
  have hdecide : ∀ (name : Text) (hname : IsLiteral (normalizeHost name)),
      hostBlockedWithLookup .defaultFalse state name 0 none .requireAllowlist
        (fun _ _ => .failed) = .blocked .denied ↔ normalizeHost name = normalizeHost host := by
    intro name hname
    have hparse : Host.parse name = .ok ⟨normalizeHost name, hname.ne_nil⟩ := dif_neg hname.ne_nil
    rw [hostBlockedWithLookup, hparse]
    rw [hostDecision_denied_iff, hdenied]
    simpa using patternMatches_entry_iff hl hname
  have hfirst := (hdecide host hl).2 rfl
  rw [hsame] at hfirst
  exact ((hdecide host' hl').1 hfirst).symm

/-- The theorem at a bracketed upper-case spelling and a plain one. -/
theorem same_decision_iff_case :
    (∀ (policy : LocalBindingPolicy) (state : ConfigState Unit Unit Unit) (port : ℕ)
      (requested : Option Bool) (authorization : HostAuthorization)
      (lookup : Text → ℕ → LookupOutcome),
      hostBlockedWithLookup policy state "[FE80::1]:443".toList port requested authorization lookup =
        hostBlockedWithLookup policy state "fe80::1".toList port requested authorization lookup) ∧
    normalizeHost "[FE80::1]:443".toList = normalizeHost "fe80::1".toList := by
  have hnorm : normalizeHost "[FE80::1]:443".toList = normalizeHost "fe80::1".toList := by
    decide
  exact ⟨(same_decision_iff "[FE80::1]:443".toList "fe80::1".toList
    (.v6 ⟨0xfe80, 0, 0, 0, 0, 0, 0, 1⟩) (by decide) (by decide)).2 hnorm, hnorm⟩

/-- A state that allows every host but one public address. -/
def denyOneAddress : ConfigState Unit Unit Unit :=
  { allowAllState with
    config := domainsOnly [⟨['*'], .allow⟩, ⟨"2606:4700::1111".toList, .deny⟩]
    denySet := ⟨[Utf8.asBytes "2606:4700::1111".toList]⟩
    allowSet_eq := by decide
    denySet_eq := by decide
    reviewSet_eq := by decide }

/-- The denied address is reached when its zeroes are written out. -/
theorem denied_spelling_reached :
    parseIpAddr "2606:4700::1111".toList = parseIpAddr "2606:4700:0:0:0:0:0:1111".toList ∧
    (parseIpAddr "2606:4700::1111".toList).isSome = true ∧
    hostBlocked .defaultFalse denyOneAddress "2606:4700::1111".toList 443 (fun _ _ => .failed) =
      .blocked .denied ∧
    hostBlocked .defaultFalse denyOneAddress "2606:4700:0:0:0:0:0:1111".toList 443
      (fun _ _ => .failed) = .allowed := by
  decide

end NetworkProxy
