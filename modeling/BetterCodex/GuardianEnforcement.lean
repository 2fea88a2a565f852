/-
# What the fixed budget guarantees

When `enforceBudget` fails, and how the sections it returns differ from those it was given.
-/
import BetterCodex.GuardianEviction

namespace Guardian

open RustStr JsonSize

/-! ## Reduced sections -/

/-- Some of the items, in order: an optional one may be missing, and in the mode that allows it the
text of a historical one may be shorter. -/
inductive ItemsReduced (historyTruncation : HistoryTruncation) :
    List (Budgeted SectionContent) → List (Budgeted SectionContent) → Prop
  | nil : ItemsReduced historyTruncation [] []
  | keep (item : Budgeted SectionContent) {items items' : List (Budgeted SectionContent)}
      (h : ItemsReduced historyTruncation items items') :
      ItemsReduced historyTruncation (item :: items) (item :: items')
  | drop {item : Budgeted SectionContent} (hoptional : item.retention.isOptional = true)
      {items items' : List (Budgeted SectionContent)} (h : ItemsReduced historyTruncation items items') :
      ItemsReduced historyTruncation (item :: items) items'
  | shorten (hallow : historyTruncation = .allow) {item item' : Budgeted SectionContent}
      (hitem : ItemShortened item item') {items items' : List (Budgeted SectionContent)}
      (h : ItemsReduced historyTruncation items items') :
      ItemsReduced historyTruncation (item :: items) (item' :: items')

/-- A section with some of its items, or without its optional message. -/
inductive SectionReduced (historyTruncation : HistoryTruncation) : SectionOutput → SectionOutput → Prop
  | content (id : SectionId) {items items' : List (Budgeted SectionContent)}
      (h : ItemsReduced historyTruncation items items') :
      SectionReduced historyTruncation ⟨id, .userContent items⟩ ⟨id, .userContent items'⟩
  | message (id : SectionId) (m : Budgeted NativeMessage) :
      SectionReduced historyTruncation ⟨id, .message m⟩ ⟨id, .message m⟩
  | dropped (id : SectionId) {m : Budgeted NativeMessage} (hoptional : m.retention.isOptional = true) :
      SectionReduced historyTruncation ⟨id, .message m⟩ ⟨id, .userContent []⟩

section
variable {historyTruncation : HistoryTruncation}

/-- Items that are shortened and then partly removed. -/
theorem itemsReduced_keepFrom {items items' : List (Budgeted SectionContent)}
    (h : List.Forall₂ ItemShortened items items')
    (hmode : historyTruncation = .allow ∨ items' = items) {keep : ℕ → Bool} {start : ℕ}
    (hkeep : ∀ j item, items'[j]? = some item → keep (start + j) = false →
      item.retention.isOptional = true) :
    ItemsReduced historyTruncation items (Indices.keepFrom keep start items') := by
  induction h generalizing start with
  | nil => exact .nil
  | @cons item item' items items' hitem _ ih =>
    have hrest : ItemsReduced historyTruncation items (Indices.keepFrom keep (start + 1) items') := by
      refine ih (hmode.imp_right fun h => (List.cons.inj h).2) fun j item hj hdropped => ?_
      refine hkeep (j + 1) item hj ?_
      rw [← hdropped, Nat.add_assoc, Nat.add_comm j 1]
    rw [Indices.keepFrom]
    split_ifs with hkept
    · rcases hmode with hallow | hsame
      · exact .shorten hallow hitem hrest
      · rw [(List.cons.inj hsame).1]
        exact .keep item hrest
    · refine .drop ?_ hrest
      rw [← hitem.retention_eq]
      exact hkeep 0 item' rfl (Bool.not_eq_true _ ▸ hkept)

/-- A section of which some optional evidence has left. -/
theorem sectionReduced_retainSection {s s' : SectionOutput} (h : SectionShortened s s')
    (hmode : historyTruncation = .allow ∨ s' = s) {sections : List SectionOutput} {i : ℕ}
    (hs : sections[i]? = some s') {removed : List (ℕ × ℕ)} (honly : OnlyCandidates sections removed) :
    SectionReduced historyTruncation s (retainSection removed i s') := by
  cases h with
  | @content id items items' h =>
    refine .content id (itemsReduced_keepFrom h (hmode.imp_right fun hsame => ?_) ?_)
    · injection hsame with _ hdelivery
      injection hdelivery
    · intro j item hitem hdropped
      refine honly.optional_item hs hitem ?_
      rw [Nat.zero_add] at hdropped
      exact not_not.1 (of_decide_eq_false hdropped)
  | message id m =>
    unfold retainSection
    split_ifs with hremoved
    · exact .dropped id (honly.optional_message hs hremoved)
    · exact .message id m

/-- All sections after the eviction. -/
theorem sectionsReduced_keptSections {sections sections' : List SectionOutput}
    (h : List.Forall₂ SectionShortened sections sections')
    (hmode : historyTruncation = .allow ∨ sections' = sections) {removed : List (ℕ × ℕ)}
    (honly : OnlyCandidates sections' removed) :
    List.Forall₂ (SectionReduced historyTruncation) sections (keptSections sections' removed) := by
  unfold keptSections
  refine List.forall₂_iff_get.2 ⟨by rw [List.length_mapIdx, h.length_eq], fun i hi hi' => ?_⟩
  rw [List.length_mapIdx] at hi'
  rw [List.get_eq_getElem, List.get_eq_getElem, List.getElem_mapIdx]
  refine sectionReduced_retainSection (h.get hi hi') (hmode.imp_right fun hsame => ?_)
    (List.getElem?_eq_getElem hi') honly
  subst hsame
  rfl

end

/-! ## When the request fits -/

/-- What is left for the context. -/
def RequestBudget.remaining (budget : RequestBudget) : ℕ :=
  budget.maxInputTokens - budget.existingContextTokens

/-- The sections with the history as short as it may be. -/
def shortestHistory (sections : List SectionOutput) : HistoryTruncation → List SectionOutput
  | .allow => sections.map floorSection
  | .preserve => sections

/-- The context does not fit: the one before it is too long, or this one is and so is what has to stay
of it, and no search for a longer form of a historical text ends with one that fits. -/
def DoesNotFit (context : ComposedContext) (budget : RequestBudget) (omissionNotice : Text)
    (historyTruncation : HistoryTruncation) : Prop :=
  budget.maxInputTokens < budget.existingContextTokens ∨
    budget.remaining < estimatedTokens context.sections ∧
      budget.remaining < requiredTokens (shortestHistory context.sections historyTruncation) +
        sectionTokens (noticeSection omissionNotice) ∧
      (historyTruncation = .allow →
        NoFormFits budget.remaining
          (requiredTokens context.sections + sectionTokens (noticeSection omissionNotice))
          (historical context.sections))

/-- The sections and the accounts after the history step. -/
structure HistoryDone (context : ComposedContext) (remaining noticeTokens : ℕ)
    (historyTruncation : HistoryTruncation) (sections : List SectionOutput) (st : HistoryState) : Prop where
  shortened : List.Forall₂ SectionShortened context.sections sections
  mode : historyTruncation = .allow ∨ sections = context.sections
  required : requiredTokens sections + noticeTokens = st.requiredTokens
  needed : estimatedTokens sections + noticeTokens ≤ remaining + st.needed
  truncated : st.truncated = false → estimatedTokens sections = estimatedTokens context.sections
  fails : remaining < st.requiredTokens ↔
    remaining < requiredTokens (shortestHistory context.sections historyTruncation) + noticeTokens ∧
      (historyTruncation = .allow →
        NoFormFits remaining (requiredTokens context.sections + noticeTokens) (historical context.sections))

/-- The history after shortening, or as it is where shortening is not allowed. -/
theorem historyDone (context : ComposedContext) (remaining noticeTokens : ℕ)
    (historyTruncation : HistoryTruncation) (st : HistoryState)
    (hrequired : st.requiredTokens = requiredTokens context.sections + noticeTokens)
    (hneeded : st.needed = estimatedTokens context.sections + noticeTokens - remaining)
    {result : List SectionOutput × HistoryState}
    (hresult : (if historyTruncation = .allow ∧ remaining < st.requiredTokens then
      shortenSections remaining st context.sections else (context.sections, st)) = result) :
    HistoryDone context remaining noticeTokens historyTruncation result.1 result.2 := by
  have hsaving := requiredTokens_floorSection context.sections
  split_ifs at hresult with hhistory
  · obtain ⟨hshort, hsaved⟩ :=
      shortenSections_spec remaining st context.sections (by omega)
    rw [hresult] at hshort hsaved
    obtain ⟨hsame, hle⟩ := estimatedTokens_shortened hshort
    have hadd := hsaved.required_add
    have hneeded' := hsaved.needed
    refine ⟨hshort, .inl hhistory.1, by omega, by omega, fun h => ?_, ?_⟩
    · have := (hsaved.truncated h).2
      omega
    · have hsum := historical_le context.sections
      rw [hsaved.required, lt_recover_iff _ _ _ (by omega), hrequired, hhistory.1]
      have hfloor : requiredTokens context.sections + noticeTokens -
          ((historical context.sections).map saving).sum =
          requiredTokens (context.sections.map floorSection) + noticeTokens := by
        omega
      rw [hfloor]
      exact and_congr_right fun _ => ⟨fun h _ => h, fun h => h rfl⟩
  · obtain rfl := hresult
    have hsame : List.Forall₂ SectionShortened context.sections context.sections :=
      List.forall₂_same.2 fun s _ => .refl s
    refine ⟨hsame, .inr rfl, hrequired.symm, by dsimp only; omega, fun _ => rfl, ?_⟩
    dsimp only
    cases historyTruncation with
    | preserve =>
      rw [hrequired]
      exact ⟨fun h => ⟨h, nofun⟩, fun h => h.1⟩
    | allow =>
      have hfits : st.requiredTokens ≤ remaining := not_lt.1 fun h => hhistory ⟨rfl, h⟩
      have hfloor : requiredTokens (shortestHistory context.sections .allow) ≤
          requiredTokens context.sections := by
        show requiredTokens (context.sections.map floorSection) ≤ _
        omega
      constructor
      · intro h
        omega
      · rintro ⟨h, -⟩
        omega

/-- A request that is too large: what is done, and when it fails. -/
theorem enforceBudget_of_lt {context : ComposedContext} {budget : RequestBudget} (omissionNotice : Text)
    (historyTruncation : HistoryTruncation)
    (hmax : ¬ budget.maxInputTokens < budget.existingContextTokens)
    (hover : budget.remaining < estimatedTokens context.sections) :
    ∃ sections st, HistoryDone context budget.remaining (sectionTokens (noticeSection omissionNotice))
        historyTruncation sections st ∧
      (budget.remaining < st.requiredTokens ∧
          enforceBudget context budget omissionNotice historyTruncation = .error .requestBudget ∨
        st.requiredTokens ≤ budget.remaining ∧ ∃ removed truncations, OnlyCandidates sections removed ∧
          estimatedTokens (keptSections sections removed) + sectionTokens (noticeSection omissionNotice) ≤
            budget.remaining ∧
          enforceBudget context budget omissionNotice historyTruncation =
            .ok ⟨keptSections sections removed ++ [noticeSection omissionNotice], truncations⟩) := by
  have hoptional := requiredTokens_eq context.sections
  unfold enforceBudget
  rw [if_neg hmax, show budget.maxInputTokens - budget.existingContextTokens = budget.remaining from rfl]
  dsimp only
  rw [if_neg (not_le.2 hover)]
  generalize hresult : (if historyTruncation = .allow ∧ budget.remaining < _ then _ else _) = result
  have hdone := historyDone context budget.remaining (sectionTokens (noticeSection omissionNotice))
    historyTruncation ⟨_, _, _, _⟩ (by dsimp only; omega) rfl hresult
  obtain ⟨sections, st⟩ := result
  refine ⟨sections, st, hdone, ?_⟩
  by_cases hrequired : budget.remaining < st.requiredTokens
  · rw [if_pos hrequired]
    exact .inl ⟨hrequired, rfl⟩
  refine .inr ⟨not_lt.1 hrequired, ?_⟩
  rw [if_neg hrequired]
  have hcandidates := congrArg List.flatten (candidates_shortened hdone.shortened)
  have hitems := remainingItems_shortened hdone.shortened
  obtain ⟨honly, hfits⟩ := evict_spec (context.sections.map candidateFramingOf) hcandidates.symm
    hitems.symm (hdone.required.le.trans (not_lt.1 hrequired)) hdone.needed
  generalize (evict budget.remaining _ _ _ sections st).removed = removed at honly hfits ⊢
  -- without a removal or a shorter text the sections would be those that are over the limit
  have hchanged : ¬ (removed = [] ∧ st.truncated = false) := by
    rintro ⟨rfl, htruncated⟩
    rw [keptSections_nil, hdone.truncated htruncated] at hfits
    omega
  have htotal : estimatedTokens (keptSections sections removed ++ [noticeSection omissionNotice]) ≤
      budget.remaining := by
    rw [estimatedTokens_append]
    exact hfits
  rw [if_neg hchanged]
  exact ⟨removed, _, honly, hfits, if_neg (not_lt.2 htotal)⟩

/-- **The fixed budget.** A request fails exactly when it does not fit. A request that succeeds fits,
and it is the one it was, or one that is reduced and says so: required evidence is as it was,
optional evidence is there or not, history is shorter only where that is allowed, and all of it is in
order. -/
theorem enforceBudget_correct (context : ComposedContext) (budget : RequestBudget)
    (omissionNotice : Text) (historyTruncation : HistoryTruncation) :
    match enforceBudget context budget omissionNotice historyTruncation with
    | .error e => e = .requestBudget ∧ DoesNotFit context budget omissionNotice historyTruncation
    | .ok context' => ¬ DoesNotFit context budget omissionNotice historyTruncation ∧
        estimatedTokens context'.sections ≤ budget.remaining ∧
        (context' = context ∨ ∃ kept, context'.sections = kept ++ [noticeSection omissionNotice] ∧
          List.Forall₂ (SectionReduced historyTruncation) context.sections kept ∧
          kept ≠ context.sections) := by
  by_cases hmax : budget.maxInputTokens < budget.existingContextTokens
  · have herror : enforceBudget context budget omissionNotice historyTruncation = .error .requestBudget := by
      unfold enforceBudget
      rw [if_pos hmax]
    rw [herror]
    exact ⟨rfl, .inl hmax⟩
  by_cases hfits : estimatedTokens context.sections ≤ budget.remaining
  · have hsame : enforceBudget context budget omissionNotice historyTruncation = .ok context := by
      unfold enforceBudget
      rw [if_neg hmax]
      exact if_pos hfits
    rw [hsame]
    refine ⟨?_, hfits, .inl rfl⟩
    rintro (h | ⟨h, -⟩)
    · exact hmax h
    · omega
  have hover := not_le.1 hfits
  obtain ⟨sections, st, hdone, ⟨hrequired, herror⟩ | ⟨hrequired, removed, truncations, honly, hkept, hok⟩⟩ :=
    enforceBudget_of_lt omissionNotice historyTruncation hmax hover
  · rw [herror]
    exact ⟨rfl, .inr ⟨hover, hdone.fails.1 hrequired⟩⟩
  · rw [hok]
    refine ⟨?_, ?_, .inr ⟨_, rfl, sectionsReduced_keptSections hdone.shortened hdone.mode honly, ?_⟩⟩
    · rintro (h | ⟨-, h⟩)
      · exact hmax h
      · exact not_lt.2 hrequired (hdone.fails.2 h)
    · rw [estimatedTokens_append]
      exact hkept
    · intro hsame
      rw [hsame] at hkept
      omega

/-- A text of letters around characters of four bytes: its form of 33 tokens is shorter than the one
of 32 tokens. -/
def unevenText : Text :=
  List.replicate 43 'a' ++ List.replicate 110 '😀' ++ List.replicate 44 'a'

/-- A context of one historical text. -/
def unevenContext : ComposedContext :=
  ⟨[⟨.conversationTranscript, .userContent [⟨.other (.inputText unevenText), false, none, .historical⟩]⟩], []⟩

/-- The shortest form is not always the one that fits: here the request succeeds, although it does not
fit with every historical text in its form of 32 tokens. -/
theorem uneven_text_fits :
    (match enforceBudget unevenContext ⟨72, 0⟩ ['n'] .allow with
      | .ok _ => true
      | .error _ => false) = true ∧
    72 < estimatedTokens unevenContext.sections ∧
    72 < requiredTokens (unevenContext.sections.map floorSection) + sectionTokens (noticeSection ['n']) := by
  decide +kernel

end Guardian
