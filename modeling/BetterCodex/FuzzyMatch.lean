/-
# Fuzzy matching (`utils/fuzzy-match/src/lib.rs`)

A needle is looked for in a haystack as a subsequence, ignoring case.  The haystack is lowered
character by character, the needle as a whole string, where a capital sigma at the end of a
word becomes `ς` and not `σ`.
-/
import BetterCodex.RustStr

namespace FuzzyMatch

open RustStr List

/-! ## Lowering -/

/-- The tables of the Unicode Character Database that Rust's lowering reads. -/
structure CaseTables where
  /-- `char::to_lowercase`. -/
  lower : Char → Text
  cased : Char → Bool
  caseIgnorable : Char → Bool
  lower_ne_nil : ∀ c, lower c ≠ []
  lower_sigma : lower 'Σ' = ['σ']

variable (tables : CaseTables)

def caseIgnorableThenCased (s : Text) : Bool :=
  (s.dropWhile tables.caseIgnorable).head?.any tables.cased

/-- The Unicode condition `Final_Sigma`, between the text before and the text after. -/
def isWordFinal (before after : Text) : Bool :=
  caseIgnorableThenCased tables before.reverse && !caseIgnorableThenCased tables after

/-- A character of a string, lowered: `map_uppercase_sigma` for a sigma. -/
def lowerAt (before : Text) (c : Char) (after : Text) : Text :=
  if c = 'Σ' then [if isWordFinal tables before after then 'ς' else 'σ'] else tables.lower c

/-- The rest of `str::to_lowercase` behind `before`. -/
def toLowercaseFrom (before : Text) : Text → Text
  | [] => []
  | c :: rest => lowerAt tables before c rest ++ toLowercaseFrom (before ++ [c]) rest

/-- `str::to_lowercase`. -/
def toLowercase (s : Text) : Text := toLowercaseFrom tables [] s

/-! ## The matcher -/

/-- `lowered_chars` together with `lowered_to_orig_char_idx`. -/
def loweredChars (haystack : Text) : List (Char × ℕ) :=
  haystack.zipIdx.flatMap fun (ch, origIdx) => (tables.lower ch).map (·, origIdx)

/-- The inner loop: the first `nc` from the place `cur` on, the index of its character, and what
is left behind it. -/
def findFrom (nc : Char) : ℕ → List (Char × ℕ) → Option (ℕ × ℕ × List (Char × ℕ))
  | _, [] => none
  | cur, (lc, origIdx) :: rest =>
    if lc = nc then some (cur, origIdx, rest) else findFrom nc (cur + 1) rest

/-- The outer loop: place and index of every character of the needle. -/
def scan (cur : ℕ) (lowered : List (Char × ℕ)) : Text → Option (List (ℕ × ℕ))
  | [] => some []
  | nc :: needle => do
    let (pos, origIdx, rest) ← findFrom nc cur lowered
    let hits ← scan (pos + 1) rest needle
    return (pos, origIdx) :: hits

/-- `Vec::dedup`. -/
def dedup : List ℕ → List ℕ
  | i :: j :: indices => if i = j then dedup (j :: indices) else i :: dedup (j :: indices)
  | indices => indices

/-- `fuzzy_match`, with the wrapping `i32` arithmetic of a release build. -/
def fuzzyMatch (haystack needle : Text) : Option (List ℕ × Int32) :=
  if needle = [] then some ([], Int32.maxValue)
  else do
    let loweredNeedle := toLowercase tables needle
    let hits ← scan 0 (loweredChars tables haystack) loweredNeedle
    let firstLowerPos ← hits.head?.map (·.1)
    let lastLowerPos := (hits.getLast?.map (·.1)).getD firstLowerPos
    let window := Int32.ofNat lastLowerPos - Int32.ofNat firstLowerPos + 1 -
      Int32.ofNat loweredNeedle.length
    let score := max window 0
    let score := if firstLowerPos = 0 then score - 100 else score
    return (dedup (hits.map (·.2)).mergeSort, score)

/-! ## Final sigmas -/

/-- A capital sigma behind `before` ends a word. -/
def hasFinalSigmaFrom (before : Text) : Text → Bool
  | [] => false
  | c :: rest =>
    (c = 'Σ' && isWordFinal tables before rest) || hasFinalSigmaFrom (before ++ [c]) rest

/-- A capital sigma ends a word. -/
def hasFinalSigma (s : Text) : Bool := hasFinalSigmaFrom tables [] s

theorem length_lowerAt (before : Text) (c : Char) (after : Text) :
    (lowerAt tables before c after).length = (tables.lower c).length := by
  unfold lowerAt
  by_cases hc : c = 'Σ'
  · rw [if_pos hc, hc, tables.lower_sigma]
    rfl
  · rw [if_neg hc]

theorem lowerAt_eq_iff (before : Text) (c : Char) (after : Text) :
    lowerAt tables before c after = tables.lower c ↔
      (c = 'Σ' && isWordFinal tables before after) = false := by
  unfold lowerAt
  by_cases hc : c = 'Σ'
  · rw [if_pos hc, hc, tables.lower_sigma]
    cases isWordFinal tables before after <;> simp
  · simp [hc]

theorem length_toLowercaseFrom (before s : Text) :
    (toLowercaseFrom tables before s).length = (s.flatMap tables.lower).length := by
  induction s generalizing before with
  | nil => rfl
  | cons c s ih =>
    rw [toLowercaseFrom, flatMap_cons, length_append, length_append, ih, length_lowerAt]

/-- The two ways of lowering differ at final sigmas only. -/
theorem toLowercaseFrom_eq_iff (before s : Text) :
    toLowercaseFrom tables before s = s.flatMap tables.lower ↔
      hasFinalSigmaFrom tables before s = false := by
  induction s generalizing before with
  | nil => simp [toLowercaseFrom, hasFinalSigmaFrom]
  | cons c s ih =>
    rw [toLowercaseFrom, flatMap_cons, hasFinalSigmaFrom, Bool.or_eq_false_iff, ← ih,
      ← lowerAt_eq_iff]
    exact ⟨fun h => append_inj h (length_lowerAt tables before c s), fun h => congrArg₂ _ h.1 h.2⟩

/-! ## The scan -/

variable {cur : ℕ} {lowered : List (Char × ℕ)} {needle : Text}

/-- One place of the haystack: it is a hit, or it is skipped. -/
theorem scan_cons (lc : Char) (origIdx : ℕ) (nc : Char) :
    scan cur ((lc, origIdx) :: lowered) (nc :: needle) =
      if lc = nc then (scan (cur + 1) lowered needle).map ((cur, origIdx) :: ·)
      else scan (cur + 1) lowered (nc :: needle) := by
  rw [scan, findFrom]
  split_ifs
  · rw [Option.map_eq_bind]
    rfl
  · rfl

/-- The hits are at characters of the needle, in order. -/
theorem exists_sublist_of_scan {hits : List (ℕ × ℕ)} (h : scan cur lowered needle = some hits) :
    ∃ used, used <+ lowered ∧ used.map (·.1) = needle ∧ used.map (·.2) = hits.map (·.2) := by
  induction lowered generalizing cur needle hits with
  | nil =>
    cases needle with
    | nil => exact ⟨[], .slnil, rfl, congrArg (map Prod.snd) (Option.some.inj h)⟩
    | cons nc needle => cases h
  | cons entry lowered ih =>
    cases needle with
    | nil => exact ⟨[], nil_sublist _, rfl, congrArg (map Prod.snd) (Option.some.inj h)⟩
    | cons nc needle =>
      rw [scan_cons] at h
      split_ifs at h with hlc
      · obtain ⟨hits, hscan, rfl⟩ := Option.map_eq_some_iff.1 h
        obtain ⟨used, hused, hneedle, hhits⟩ := ih hscan
        exact ⟨entry :: used, hused.cons_cons entry, congrArg₂ _ hlc hneedle, congrArg (entry.2 :: ·) hhits⟩
      · obtain ⟨used, hused, hneedle, hhits⟩ := ih h
        exact ⟨used, hused.cons entry, hneedle, hhits⟩

/-- The greedy scan finds every subsequence. -/
theorem exists_scan_eq_some (cur : ℕ) (h : needle <+ lowered.map (·.1)) :
    ∃ hits, scan cur lowered needle = some hits := by
  induction lowered generalizing cur needle with
  | nil =>
    obtain rfl := sublist_nil.1 h
    exact ⟨[], rfl⟩
  | cons entry lowered ih =>
    cases needle with
    | nil => exact ⟨[], rfl⟩
    | cons nc needle =>
      rw [scan_cons]
      split_ifs with hlc
      · obtain ⟨hits, hscan⟩ := ih (cur + 1) h.of_cons_cons
        exact ⟨_, congrArg (Option.map _) hscan⟩
      · refine ih _ ?_
        rcases cons_sublist_cons'.1 h with h | ⟨heq, -⟩
        · exact h
        · exact absurd heq.symm hlc

/-! ## The indices -/

/-- What the characters of the haystack at some indices are lowered to. -/
def expansions (haystack : Text) (indices : List ℕ) : Text :=
  indices.flatMap fun i => (haystack[i]?.map tables.lower).getD []

theorem map_fst_loweredChars (haystack : Text) :
    (loweredChars tables haystack).map (·.1) = haystack.flatMap tables.lower := by
  unfold loweredChars
  rw [map_flatMap]
  simp only [map_map, Function.comp_def, map_id']
  rw [← flatMap_map Prod.fst tables.lower, zipIdx_map_fst]

theorem snd_lt_of_mem_loweredChars {haystack : Text} {entry : Char × ℕ}
    (h : entry ∈ loweredChars tables haystack) : entry.2 < haystack.length := by
  obtain ⟨p, hp, hentry⟩ := mem_flatMap.1 h
  obtain ⟨lc, -, rfl⟩ := mem_map.1 hentry
  exact (mem_zipIdx' hp).1

/-- Indices in order select the characters there. -/
theorem map_fst_filter_loweredChars {haystack : Text} {indices : List ℕ}
    (horder : indices.Pairwise (· < ·)) (hvalid : ∀ i ∈ indices, i < haystack.length) :
    ((loweredChars tables haystack).filter (·.2 ∈ indices)).map (·.1) =
      expansions tables haystack indices := by
  have hselected : (haystack.zipIdx.filter (·.2 ∈ indices)).map Prod.snd = indices := by
    have hfilter : (haystack.zipIdx.map Prod.snd).filter (· ∈ indices) = indices := by
      rw [zipIdx_map_snd]
      refine Pairwise.eq_of_mem_iff (Pairwise.filter _ pairwise_lt_range') horder fun i => ?_
      have := hvalid i
      simp only [mem_filter, mem_range'_1, decide_eq_true_eq]
      grind
    rwa [filter_map] at hfilter
  have hfilter : ((loweredChars tables haystack).filter (·.2 ∈ indices)).map (·.1) =
      (haystack.zipIdx.filter (·.2 ∈ indices)).flatMap fun p => tables.lower p.1 := by
    unfold loweredChars
    induction haystack.zipIdx with
    | nil => rfl
    | cons p entries ih =>
      rw [flatMap_cons, filter_append, map_append, ih, filter_cons]
      by_cases hmem : p.2 ∈ indices <;> simp [hmem, filter_map, Function.comp_def]
  rw [hfilter, expansions]
  conv_rhs => rw [← hselected, flatMap_map]
  refine flatMap_congr fun p hp => ?_
  rw [mem_zipIdx_iff_getElem?.1 (mem_filter.1 hp).1]
  rfl

theorem mem_dedup {indices : List ℕ} {i : ℕ} : i ∈ dedup indices ↔ i ∈ indices := by
  fun_induction dedup indices with
  | case1 j indices ih => simp [ih]
  | case2 j k indices hne ih => rw [mem_cons, ih, ← mem_cons]
  | case3 => rfl

theorem pairwise_dedup {indices : List ℕ} (h : indices.Pairwise (· ≤ ·)) :
    (dedup indices).Pairwise (· < ·) := by
  fun_induction dedup indices with
  | case1 j indices ih => exact ih h.of_cons
  | case2 j k indices hne ih =>
    refine pairwise_cons.2 ⟨fun i hi => ?_, ih h.of_cons⟩
    have hj := pairwise_cons.1 h
    have hk := (pairwise_cons.1 hj.2).1
    rcases mem_cons.1 (mem_dedup.1 hi) with rfl | hi
    · exact lt_of_le_of_ne (hj.1 i mem_cons_self) hne
    · exact (lt_of_le_of_ne (hj.1 k mem_cons_self) hne).trans_le (hk i hi)
  | case3 indices hshort =>
    cases indices with
    | nil => exact .nil
    | cons i indices =>
      cases indices with
      | nil => exact pairwise_singleton _ i
      | cons j indices => exact (hshort i j indices rfl).elim

/-! ## Correctness -/

/-- What `fuzzy_match` should do: a subsequence is found, and what is reported are characters of
the haystack, in order, whose lowering has the lowered needle as a subsequence. -/
structure Correct (haystack needle : Text) : Prop where
  found : needle <+ haystack → (fuzzyMatch tables haystack needle).isSome
  sound : ∀ indices score, fuzzyMatch tables haystack needle = some (indices, score) →
    indices.Pairwise (· < ·) ∧ (∀ i ∈ indices, i < haystack.length) ∧
      toLowercase tables needle <+ expansions tables haystack indices

variable {tables} {haystack : Text}

theorem scan_of_fuzzyMatch {indices : List ℕ} {score : Int32} (hne : needle ≠ [])
    (h : fuzzyMatch tables haystack needle = some (indices, score)) :
    ∃ hits, scan 0 (loweredChars tables haystack) (toLowercase tables needle) = some hits ∧
      dedup (hits.map (·.2)).mergeSort = indices := by
  rw [fuzzyMatch, if_neg hne] at h
  obtain ⟨hits, hscan, h⟩ := Option.bind_eq_some_iff.1 h
  obtain ⟨first, -, h⟩ := Option.bind_eq_some_iff.1 h
  exact ⟨hits, hscan, congrArg Prod.fst (Option.some.inj h)⟩

theorem toLowercase_ne_nil (hne : needle ≠ []) : toLowercase tables needle ≠ [] := by
  intro hnil
  have hlength := length_toLowercaseFrom tables [] needle
  rw [toLowercase] at hnil
  rw [hnil, length_nil] at hlength
  obtain ⟨c, hc⟩ := exists_mem_of_ne_nil needle hne
  exact tables.lower_ne_nil c (flatMap_eq_nil_iff.1 (length_eq_zero_iff.1 hlength.symm) c hc)

/-- A match is found exactly if the needle is a subsequence. -/
theorem isSome_fuzzyMatch_iff :
    (fuzzyMatch tables haystack needle).isSome ↔
      toLowercase tables needle <+ haystack.flatMap tables.lower := by
  rw [← map_fst_loweredChars]
  by_cases hne : needle = []
  · subst hne
    exact iff_of_true rfl (nil_sublist _)
  constructor
  · intro h
    obtain ⟨⟨indices, score⟩, h⟩ := Option.isSome_iff_exists.1 h
    obtain ⟨hits, hscan, -⟩ := scan_of_fuzzyMatch hne h
    obtain ⟨used, hused, hneedle, -⟩ := exists_sublist_of_scan hscan
    rw [← hneedle]
    exact hused.map _
  · intro h
    obtain ⟨hits, hscan⟩ := exists_scan_eq_some 0 h
    obtain ⟨used, -, hneedle, hhits⟩ := exists_sublist_of_scan hscan
    have hhead : hits ≠ [] := by
      rintro rfl
      obtain rfl := map_eq_nil_iff.1 hhits
      exact toLowercase_ne_nil hne hneedle.symm
    obtain ⟨hit, hits, rfl⟩ := exists_cons_of_ne_nil hhead
    rw [fuzzyMatch, if_neg hne]
    simp [hscan]

/-- The indices of a match increase and spell the needle. -/
theorem sound_fuzzyMatch (indices : List ℕ) (score : Int32)
    (h : fuzzyMatch tables haystack needle = some (indices, score)) :
    indices.Pairwise (· < ·) ∧ (∀ i ∈ indices, i < haystack.length) ∧
      toLowercase tables needle <+ expansions tables haystack indices := by
  by_cases hne : needle = []
  · subst hne
    obtain ⟨rfl, -⟩ := Prod.mk.inj (Option.some.inj h)
    exact ⟨.nil, nofun, nil_sublist _⟩
  obtain ⟨hits, hscan, hindices⟩ := scan_of_fuzzyMatch hne h
  obtain ⟨used, hused, hneedle, hhits⟩ := exists_sublist_of_scan hscan
  have hmem : ∀ i, i ∈ indices ↔ i ∈ used.map (·.2) := by
    intro i
    rw [← hindices, mem_dedup, mem_mergeSort, hhits]
  have horder : indices.Pairwise (· < ·) :=
    hindices ▸ pairwise_dedup (pairwise_mergeSort' (· ≤ ·) (hits.map (·.2)))
  have hvalid : ∀ i ∈ indices, i < haystack.length := by
    intro i hi
    obtain ⟨entry, hentry, rfl⟩ := mem_map.1 ((hmem i).1 hi)
    exact snd_lt_of_mem_loweredChars tables (hused.subset hentry)
  refine ⟨horder, hvalid, ?_⟩
  have hkeep : used.filter (·.2 ∈ indices) = used :=
    filter_eq_self.2 fun entry he => decide_eq_true ((hmem _).2 (mem_map_of_mem he))
  rw [← map_fst_filter_loweredChars tables horder hvalid, ← hneedle, ← hkeep]
  exact (hused.filter _).map _

/-- **Fuzzy matching.**  A haystack and a needle are treated correctly exactly when the lowered
needle is a subsequence of the lowered haystack whenever the needle is one of the haystack.
Every haystack is treated correctly exactly when no capital sigma of the needle ends a word. -/
theorem correct_iff (tables : CaseTables) (needle : Text) :
    (∀ haystack, Correct tables haystack needle ↔
      (needle <+ haystack → toLowercase tables needle <+ haystack.flatMap tables.lower)) ∧
    ((∀ haystack, Correct tables haystack needle) ↔ hasFinalSigma tables needle = false) := by
  have hcorrect : ∀ haystack, Correct tables haystack needle ↔
      (needle <+ haystack → toLowercase tables needle <+ haystack.flatMap tables.lower) := by
    intro haystack
    rw [← isSome_fuzzyMatch_iff]
    exact ⟨fun h => h.found, fun h => ⟨h, sound_fuzzyMatch⟩⟩
  refine ⟨hcorrect, ?_⟩
  rw [hasFinalSigma, ← toLowercaseFrom_eq_iff]
  constructor
  · -- the needle itself as the haystack
    intro h
    have hsub := (hcorrect needle).1 (h needle) (Sublist.refl _)
    exact hsub.eq_of_length (length_toLowercaseFrom tables [] needle)
  · intro heq haystack
    refine (hcorrect haystack).2 fun hsub => ?_
    rw [toLowercase, heq]
    exact hsub.flatMap _

/-- ASCII and the Greek letters without accents. -/
def greekTables : CaseTables where
  lower c := if 'Α' ≤ c ∧ c ≤ 'Ω' ∧ c.toNat ≠ 0x3a2 then [Char.ofNat (c.toNat + 32)] else [c.toLower]
  cased c := c.isAlpha || ('Α' ≤ c && c ≤ 'Ω' && c.toNat ≠ 0x3a2) || ('α' ≤ c && c ≤ 'ω')
  caseIgnorable c := c ∈ ['\'', '.', ':', '^', '\x60']
  lower_ne_nil c := by split_ifs <;> simp
  lower_sigma := by decide

/-- A Greek word in capitals is not found in itself. -/
theorem final_sigma_is_missed : ¬ Correct greekTables "ΑΣ".toList "ΑΣ".toList := by
  intro h
  have hfound := h.found (Sublist.refl _)
  rw [show fuzzyMatch greekTables "ΑΣ".toList "ΑΣ".toList = none by decide] at hfound
  cases hfound

end FuzzyMatch
