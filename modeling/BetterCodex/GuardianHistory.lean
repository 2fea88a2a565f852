/-
# Shortening the history of a Guardian request

The loop over the historical texts keeps account of the tokens that the required evidence takes.  A
text ends in a form that is short enough, or in its shortest form.
-/
import BetterCodex.GuardianFixed

namespace Guardian

open RustStr JsonSize List

/-! ## The form of one text -/

/-- The loop ends where it began or at a form that fits. -/
theorem bisect_cases (fits : ℕ → Bool) (fuel lower upper selected : ℕ) :
    bisect fits fuel lower upper selected = selected ∨
      fits (bisect fits fuel lower upper selected) = true := by
  induction fuel generalizing lower upper selected with
  | zero => exact .inl rfl
  | succ fuel ih =>
    rw [bisect]
    dsimp only
    split_ifs with hlt hfits
    · rcases ih (lower + (upper - lower + 1) / 2) upper (lower + (upper - lower + 1) / 2) with h | h
      · rw [h]
        exact .inr hfits
      · exact .inr h
    · exact ih lower _ selected
    · exact .inl rfl

/-- The content with its text in the shortest form, where that saves tokens. -/
def floorContent (content : SectionContent) : SectionContent :=
  match content.body with
  | none => content
  | some body =>
    if sectionContentTokens (content.form body minHistoryTokens) < sectionContentTokens content then
      content.form body minHistoryTokens
    else content

theorem le_bytesOfTokens (n : ℕ) : n ≤ bytesOfTokens (tokensOfBytes n) := by
  unfold bytesOfTokens tokensOfBytes
  omega

theorem truncateText_min (body : Text) (tokens : ℕ) :
    truncateText body (min tokens (tokensOfBytes (utf8Len body))) = truncateText body tokens := by
  rcases Nat.le_total tokens (tokensOfBytes (utf8Len body)) with h | h
  · rw [Nat.min_eq_left h]
  · -- both budgets hold the whole text
    rw [Nat.min_eq_right h]
    have hbytes := le_bytesOfTokens (utf8Len body)
    have hmore : utf8Len body ≤ bytesOfTokens tokens := by
      unfold bytesOfTokens at hbytes ⊢
      omega
    unfold truncateText
    rw [if_pos hbytes, if_pos hmore]

section
variable (content : SectionContent) (excess : ℕ)

theorem tokens_floorContent_le :
    sectionContentTokens (floorContent content) ≤ sectionContentTokens content := by
  unfold floorContent
  cases content.body with
  | none => exact le_rfl
  | some body =>
    dsimp only
    split_ifs with h
    · exact h.le
    · exact le_rfl

/-- A text saves what it has to, or it is cut to its shortest form. -/
theorem shorten_cases :
    sectionContentTokens (shorten content excess) ≤ sectionContentTokens content - excess ∨
      shorten content excess = floorContent content := by
  unfold shorten floorContent
  cases content.body with
  | none => exact .inr rfl
  | some body =>
    dsimp only
    rcases bisect_cases (fun mid => sectionContentTokens (content.form body mid) ≤
        sectionContentTokens content - excess) (tokensOfBytes (utf8Len body))
        (min minHistoryTokens (tokensOfBytes (utf8Len body))) (tokensOfBytes (utf8Len body))
        (min minHistoryTokens (tokensOfBytes (utf8Len body))) with h | h
    · right
      have hselected : content.form body (selectedTokens content body excess) =
          content.form body minHistoryTokens := by
        unfold SectionContent.form
        rw [← truncateText_min body minHistoryTokens]
        exact congrArg (fun tokens => content.replaceText (truncateText body tokens)) h
      rw [hselected]
    · have hfits : sectionContentTokens (content.form body (selectedTokens content body excess)) ≤
          sectionContentTokens content - excess := of_decide_eq_true h
      left
      by_cases hless : sectionContentTokens (content.form body (selectedTokens content body excess)) <
          sectionContentTokens content
      · rw [if_pos hless]
        exact hfits
      · -- nothing is saved, so nothing had to be
        rw [if_neg hless]
        omega

/-- What a shortened content looks like. -/
theorem shorten_form (h : shorten content excess ≠ content) :
    ∃ body tokens, content.body = some body ∧ shorten content excess = content.form body tokens ∧
      sectionContentTokens (shorten content excess) < sectionContentTokens content := by
  unfold shorten at h ⊢
  cases hbody : content.body with
  | none => simp [hbody] at h
  | some body =>
    rw [hbody] at h
    dsimp only at h ⊢
    split_ifs at h ⊢ with hless
    · exact ⟨body, _, rfl, rfl, hless⟩
    · exact absurd rfl h

end

/-! ## The search for a budget -/

/-- `truncate_content_to_fit`: the content that it leaves, and whether that fits. -/
def truncateContentToFit (content : SectionContent) (maxTokens minTextTokens : ℕ) :
    SectionContent × Bool :=
  match content.body with
  | none => (content, false)
  | some body =>
    let upper := tokensOfBytes (utf8Len body)
    let lower := min minTextTokens upper
    let selected := bisect (fun mid => sectionContentTokens (content.form body mid) ≤ maxTokens)
      upper lower upper lower
    let left := if sectionContentTokens content ≤ sectionContentTokens (content.form body selected)
      then content else content.form body selected
    (left, sectionContentTokens left ≤ maxTokens)

/-- The budgets that the search tries as long as none of them fits: each time the middle of
what is left below. -/
def triedBudgets (lower upper : ℕ) : List ℕ :=
  if lower < upper then
    (lower + (upper - lower + 1) / 2) :: triedBudgets lower (lower + (upper - lower + 1) / 2 - 1)
  else []
termination_by upper - lower

/-- The search finds a budget that fits, if it tries one. -/
theorem fits_bisect_iff (fits : ℕ → Bool) {fuel lower upper : ℕ} (hfuel : upper - lower ≤ fuel) :
    fits (bisect fits fuel lower upper lower) = true ↔
      fits lower = true ∨ ∃ b ∈ triedBudgets lower upper, fits b = true := by
  induction fuel generalizing upper with
  | zero =>
    rw [triedBudgets, if_neg (by omega), bisect]
    simp
  | succ fuel ih =>
    rw [triedBudgets, bisect]
    dsimp only
    by_cases hlt : lower < upper
    · rw [if_pos hlt, if_pos hlt, exists_mem_cons_iff]
      generalize hmid : lower + (upper - lower + 1) / 2 = mid
      cases hfits : fits mid with
      | true =>
        rw [if_pos rfl]
        refine ⟨fun _ => .inr (.inl rfl), fun _ => ?_⟩
        rcases bisect_cases fits fuel mid upper mid with h | h
        · rw [h, hfits]
        · exact h
      | false =>
        rw [if_neg Bool.false_ne_true, ih (by omega)]
        simp
    · rw [if_neg hlt, if_neg hlt]
      simp

section
variable {content : SectionContent} {body : Text}

theorem SectionContent.replaceText_body (h : content.body = some body) :
    content.replaceText body = content := by
  cases content with
  | transcript record => rw [← Option.some.inj h]; rfl
  | exact item => rfl
  | other item =>
    cases item with
    | inputText text => rw [← Option.some.inj h]; rfl
    | media media => rfl

theorem form_full (h : content.body = some body) :
    content.form body (tokensOfBytes (utf8Len body)) = content := by
  unfold SectionContent.form truncateText
  rw [if_pos (le_bytesOfTokens _)]
  exact SectionContent.replaceText_body h

/-- **The search misses budgets**: a content that fits at some budget is made to fit exactly
when it fits at the least budget, as a whole, or at one of the budgets that are tried. -/
theorem truncateContentToFit_iff (hbody : content.body = some body) (maxTokens minTextTokens : ℕ) :
    let upper := tokensOfBytes (utf8Len body)
    let lower := min minTextTokens upper
    let fits := fun budget => sectionContentTokens (content.form body budget) ≤ maxTokens
    let result := truncateContentToFit content maxTokens minTextTokens
    (((∃ budget, lower ≤ budget ∧ budget ≤ upper ∧ fits budget) →
        result.2 = true ∧ sectionContentTokens result.1 ≤ maxTokens) ↔
      ((∃ budget, lower ≤ budget ∧ budget ≤ upper ∧ fits budget) →
        fits lower ∨ (∃ budget ∈ triedBudgets lower upper, fits budget) ∨ fits upper)) ∧
      sectionContentTokens result.1 ≤ sectionContentTokens content := by
  intro upper lower fits result
  have hsearch := fits_bisect_iff (fun budget => decide (fits budget)) (Nat.sub_le upper lower)
  simp only [decide_eq_true_eq] at hsearch
  have hfull : fits upper ↔ sectionContentTokens content ≤ maxTokens := by
    show sectionContentTokens (content.form body _) ≤ maxTokens ↔ _
    rw [form_full hbody]
  -- what is left fits if the content does, or the budget that the search ends with
  have hleft : (sectionContentTokens result.1 ≤ maxTokens ↔
        fits (bisect (fun budget => decide (fits budget)) upper lower upper lower) ∨ fits upper) ∧
      sectionContentTokens result.1 ≤ sectionContentTokens content := by
    rw [hfull]
    simp only [result, truncateContentToFit, hbody]
    split_ifs with h
    · exact ⟨⟨.inr, fun hor => hor.elim h.trans id⟩, le_rfl⟩
    · exact ⟨⟨.inl, fun hor => hor.elim id (Nat.le_of_not_le h).trans⟩, Nat.le_of_not_le h⟩
  have hflag : result.2 = true ↔ sectionContentTokens result.1 ≤ maxTokens := by
    simp only [result, truncateContentToFit, hbody, decide_eq_true_eq]
  refine ⟨imp_congr_right fun _ => ?_, hleft.2⟩
  rw [and_iff_right_of_imp hflag.2, hleft.1, hsearch, or_assoc]

end

/-- A hundred letters, at most 22 tokens: the text is cut, and the search finds a budget. -/
theorem truncateContentToFit_iff_cut :
    let content := SectionContent.other (.inputText (replicate 100 'a'))
    let result := truncateContentToFit content 22 0
    22 < sectionContentTokens content ∧ result.2 = true ∧ sectionContentTokens result.1 ≤ 22 ∧
      sectionContentTokens result.1 ≤ sectionContentTokens content := by
  intro content result
  have hbody : content.body = some (replicate 100 'a') := rfl
  have h := truncateContentToFit_iff hbody 22 0
  obtain ⟨hflag, hcost⟩ := h.1.2 (fun _ => .inl (by decide)) ⟨0, by decide, by decide, by decide⟩
  exact ⟨by decide, hflag, hcost, h.2⟩

/-- Seventy-two letters, at most 18 tokens, a budget of at least one token: the marker alone
costs 19 tokens while it counts ten tokens or more, and 18 tokens at a budget of nine.  The
search tries the budgets 10, 5, 3 and 2 and ends with the marker that does not fit. -/
theorem truncateContentToFit_misses :
    let content := SectionContent.other (.inputText (replicate 72 'a'))
    sectionContentTokens (content.form (replicate 72 'a') 9) ≤ 18 ∧
      (truncateContentToFit content 18 1).2 = false ∧
      sectionContentTokens (truncateContentToFit content 18 1).1 = 19 := by
  decide

/-! ## The history loop -/

/-- The tokens that the shortest form of a content saves. -/
def saving (content : SectionContent) : ℕ :=
  sectionContentTokens content - sectionContentTokens (floorContent content)

/-- The historical contents of some items. -/
def historicalItems (items : List (Budgeted SectionContent)) : List SectionContent :=
  (items.filter (·.retention = .historical)).map (·.content)

/-- The historical contents of a section. -/
def historicalSection (s : SectionOutput) : List SectionContent :=
  match s.delivery with
  | .userContent items => historicalItems items
  | .message _ => []

/-- The historical contents in source order. -/
def historical (sections : List SectionOutput) : List SectionContent := sections.flatMap historicalSection

/-- The required tokens after the history loop. -/
def recover (remaining : ℕ) : ℕ → List SectionContent → ℕ
  | required, [] => required
  | required, content :: contents =>
    if required ≤ remaining then required
    else
      recover remaining
        (required - (sectionContentTokens content -
          sectionContentTokens (shorten content (required - remaining)))) contents

variable {remaining : ℕ}

theorem recover_of_le {required : ℕ} (h : required ≤ remaining) (contents : List SectionContent) :
    recover remaining required contents = required := by
  cases contents with
  | nil => rfl
  | cons content contents => rw [recover, if_pos h]

theorem recover_append (remaining required : ℕ) (contents contents' : List SectionContent) :
    recover remaining required (contents ++ contents') =
      recover remaining (recover remaining required contents) contents' := by
  induction contents generalizing required with
  | nil => rfl
  | cons content contents ih =>
    rw [cons_append, recover, recover]
    split_ifs with h
    · rw [recover_of_le h]
    · exact ih _

/-- With the texts before it in their shortest form, no text finds a form that is short enough. -/
def NoFormFits (remaining required : ℕ) (contents : List SectionContent) : Prop :=
  ∀ before content after, contents = before ++ content :: after →
    sectionContentTokens content <
      sectionContentTokens (shorten content (required - (before.map saving).sum - remaining)) +
        (required - (before.map saving).sum - remaining)

/-- **The history loop fails** when the shortest forms do not fit and no form of a text does. -/
theorem lt_recover_iff (remaining required : ℕ) (contents : List SectionContent)
    (hrequired : (contents.map sectionContentTokens).sum ≤ required) :
    remaining < recover remaining required contents ↔
      remaining < required - (contents.map saving).sum ∧ NoFormFits remaining required contents := by
  induction contents generalizing required with
  | nil =>
    refine ⟨fun h => ⟨h, ?_⟩, fun h => h.1⟩
    intro before content after hsplit
    simp at hsplit
  | cons content contents ih =>
    rw [map_cons, sum_cons] at hrequired
    rw [map_cons, sum_cons]
    have hsaving : saving content = sectionContentTokens content - sectionContentTokens (floorContent content) := rfl
    by_cases hle : required ≤ remaining
    · rw [recover_of_le hle]
      constructor
      · intro h
        omega
      · rintro ⟨h, -⟩
        omega
    · rw [recover, if_neg hle]
      -- the first text decides, or it is in its shortest form and the others do
      by_cases hfits : sectionContentTokens (shorten content (required - remaining)) + (required - remaining) ≤
          sectionContentTokens content
      · rw [recover_of_le (by omega)]
        constructor
        · intro h
          omega
        · rintro ⟨-, hforms⟩
          have hfirst := hforms [] content contents rfl
          rw [map_nil, sum_nil, Nat.sub_zero] at hfirst
          omega
      · have hshort : shorten content (required - remaining) = floorContent content := by
          refine (shorten_cases content (required - remaining)).resolve_left fun h => ?_
          have hpos := sectionContentTokens_pos (shorten content (required - remaining))
          omega
        rw [hshort, ← hsaving, ih _ (by omega), Nat.sub_sub]
        refine and_congr_right fun _ => ⟨fun hforms => ?_, fun hforms => ?_⟩
        · intro before content' after hsplit
          cases before with
          | nil =>
            obtain ⟨rfl, -⟩ := List.cons.inj hsplit
            rw [map_nil, sum_nil, Nat.sub_zero]
            omega
          | cons content'' before =>
            obtain ⟨rfl, hrest⟩ := List.cons.inj hsplit
            rw [map_cons, sum_cons, ← Nat.sub_sub]
            exact hforms before content' after hrest
        · intro before content' after hsplit
          have hnext := hforms (content :: before) content' after (by rw [hsplit]; rfl)
          rw [map_cons, sum_cons, ← Nat.sub_sub] at hnext
          exact hnext

/-! ## Sections with shortened texts -/

/-- The item, or a historical one with a shorter text. -/
def ItemShortened (item item' : Budgeted SectionContent) : Prop :=
  item' = item ∨ item.retention = .historical ∧ ∃ body tokens, item.content.body = some body ∧
    item' = { item with content := item.content.form body tokens } ∧
    sectionContentTokens item'.content < sectionContentTokens item.content

/-- A section with some historical texts shortened. -/
inductive SectionShortened : SectionOutput → SectionOutput → Prop
  | content (id : SectionId) {items items' : List (Budgeted SectionContent)}
      (h : List.Forall₂ ItemShortened items items') :
      SectionShortened ⟨id, .userContent items⟩ ⟨id, .userContent items'⟩
  | message (id : SectionId) (m : Budgeted NativeMessage) :
      SectionShortened ⟨id, .message m⟩ ⟨id, .message m⟩

variable {item item' : Budgeted SectionContent}

theorem ItemShortened.retention_eq (h : ItemShortened item item') :
    item'.retention = item.retention := by
  rcases h with rfl | ⟨-, body, tokens, -, rfl, -⟩
  · rfl
  · rfl

theorem ItemShortened.tokens_le (h : ItemShortened item item') :
    sectionContentTokens item'.content ≤ sectionContentTokens item.content := by
  rcases h with rfl | ⟨-, body, tokens, -, -, hlt⟩
  · exact le_rfl
  · exact hlt.le

theorem ItemShortened.eq_of_optional (h : ItemShortened item item')
    (hoptional : item.retention.isOptional = true) : item' = item := by
  rcases h with rfl | ⟨hhistorical, -⟩
  · rfl
  · rw [hhistorical] at hoptional
    cases hoptional

/-- The contents of some items. -/
def contentsTokens (items : List (Budgeted SectionContent)) : ℕ :=
  (items.map fun item => sectionContentTokens item.content).sum

theorem contentsTokens_cons (item : Budgeted SectionContent) (items : List (Budgeted SectionContent)) :
    contentsTokens (item :: items) = sectionContentTokens item.content + contentsTokens items := rfl

theorem contentsTokens_filter (p : Budgeted SectionContent → Bool) (items : List (Budgeted SectionContent)) :
    contentsTokens (items.filter p) + contentsTokens (items.filter fun item => !p item) =
      contentsTokens items := by
  induction items with
  | nil => rfl
  | cons item items ih =>
    rw [filter_cons, filter_cons]
    cases p item
    · rw [if_neg Bool.false_ne_true, if_pos (by rfl), contentsTokens_cons, contentsTokens_cons]
      omega
    · rw [if_pos (by rfl), if_neg (by simp), contentsTokens_cons, contentsTokens_cons]
      omega

variable (items : List (Budgeted SectionContent))

theorem itemsTokens_eq :
    itemsTokens items = contentFramingTokens items.length + contentsTokens items := rfl

section
variable {items items' : List (Budgeted SectionContent)} (h : List.Forall₂ ItemShortened items items')
include h

theorem contentsTokens_shortened_le : contentsTokens items' ≤ contentsTokens items := by
  induction h with
  | nil => exact le_rfl
  | cons hitem _ ih =>
    rw [contentsTokens_cons, contentsTokens_cons]
    have := hitem.tokens_le
    omega

theorem contentsTokens_required :
    contentsTokens (requiredItems items') + contentsTokens items =
      contentsTokens (requiredItems items) + contentsTokens items' := by
  unfold requiredItems
  induction h with
  | nil => rfl
  | cons hitem _ ih =>
    rw [filter_cons, filter_cons, hitem.retention_eq, contentsTokens_cons, contentsTokens_cons]
    split_ifs with hoptional
    · rw [contentsTokens_cons, contentsTokens_cons]
      omega
    · rw [hitem.eq_of_optional (by simpa using hoptional)]
      omega

theorem length_required_shortened : (requiredItems items').length = (requiredItems items).length := by
  unfold requiredItems
  induction h with
  | nil => rfl
  | cons hitem _ ih =>
    rw [filter_cons, filter_cons, hitem.retention_eq]
    split_ifs
    · rw [length_cons, length_cons, ih]
    · exact ih

end

/-- A section without its optional evidence. -/
def requiredSection (s : SectionOutput) : SectionOutput :=
  match s.delivery with
  | .userContent items => { s with delivery := .userContent (requiredItems items) }
  | .message message => if message.retention.isOptional then { s with delivery := .userContent [] } else s

/-- The tokens of the required evidence. -/
def requiredTokens (sections : List SectionOutput) : ℕ := estimatedTokens (sections.map requiredSection)

variable (s : SectionOutput) (sections : List SectionOutput)

theorem requiredTokens_cons :
    requiredTokens (s :: sections) = sectionTokens (requiredSection s) + requiredTokens sections := rfl

theorem estimatedTokens_cons :
    estimatedTokens (s :: sections) = sectionTokens s + estimatedTokens sections := rfl

/-- A section costs what its optional and its required evidence cost. -/
theorem sectionTokens_eq_add :
    sectionTokens s = optionalTokens s + sectionTokens (requiredSection s) := by
  obtain ⟨id, delivery⟩ := s
  cases delivery with
  | userContent items =>
    show itemsTokens items = contentsTokens (items.filter (·.retention.isOptional)) + _ +
      itemsTokens (requiredItems items)
    have hsplit := contentsTokens_filter (·.retention.isOptional) items
    have hframing : contentFramingTokens (requiredItems items).length ≤ contentFramingTokens items.length :=
      contentFramingTokens_mono (length_filter_le _ _)
    rw [itemsTokens_eq, itemsTokens_eq]
    unfold requiredItems at hframing ⊢
    omega
  | message message =>
    unfold optionalTokens requiredSection
    dsimp only
    split_ifs
    · rfl
    · exact (Nat.zero_add _).symm

theorem requiredTokens_eq :
    requiredTokens sections = estimatedTokens sections - (sections.map optionalTokens).sum ∧
      (sections.map optionalTokens).sum ≤ estimatedTokens sections := by
  induction sections with
  | nil => exact ⟨rfl, le_rfl⟩
  | cons s sections ih =>
    have hs := sectionTokens_eq_add s
    rw [requiredTokens_cons, estimatedTokens_cons, map_cons, sum_cons]
    omega

/-- The tokens that shortening saves are the same with and without the optional evidence. -/
theorem SectionShortened.tokens {s s' : SectionOutput} (h : SectionShortened s s') :
    sectionTokens (requiredSection s') + sectionTokens s =
        sectionTokens (requiredSection s) + sectionTokens s' ∧
      sectionTokens s' ≤ sectionTokens s := by
  cases h with
  | content id h =>
    rename_i items items'
    show itemsTokens (requiredItems items') + itemsTokens items =
      itemsTokens (requiredItems items) + itemsTokens items' ∧ itemsTokens items' ≤ itemsTokens items
    have hsaved := contentsTokens_required h
    have hle := contentsTokens_shortened_le h
    simp only [itemsTokens_eq, h.length_eq, length_required_shortened h]
    omega
  | message id m => exact ⟨rfl, le_rfl⟩

theorem estimatedTokens_shortened {sections sections' : List SectionOutput}
    (h : List.Forall₂ SectionShortened sections sections') :
    requiredTokens sections' + estimatedTokens sections =
        requiredTokens sections + estimatedTokens sections' ∧
      estimatedTokens sections' ≤ estimatedTokens sections := by
  induction h with
  | nil => exact ⟨rfl, le_rfl⟩
  | cons hs _ ih =>
    have := hs.tokens
    rw [requiredTokens_cons, requiredTokens_cons, estimatedTokens_cons, estimatedTokens_cons]
    omega

/-! ## What the history loop does -/

/-- The loop has gone from one state to another one and saved some tokens. -/
structure HistoryState.Saved (remaining : ℕ) (contents : List SectionContent) (saved : ℕ)
    (st st' : HistoryState) : Prop where
  required : st'.requiredTokens = recover remaining st.requiredTokens contents
  required_add : st'.requiredTokens + saved = st.requiredTokens
  needed : st'.needed = st.needed - saved
  truncated : st'.truncated = false → st.truncated = false ∧ saved = 0

theorem HistoryState.Saved.refl_of_le {st : HistoryState} (h : st.requiredTokens ≤ remaining)
    (contents : List SectionContent) : st.Saved remaining contents 0 st :=
  ⟨(recover_of_le h contents).symm, rfl, rfl, fun h => ⟨h, rfl⟩⟩

/-- Savings add up. -/
theorem HistoryState.Saved.trans {saved saved' : ℕ} {contents contents' : List SectionContent}
    {st st' st'' : HistoryState} (h : st.Saved remaining contents saved st')
    (h' : st'.Saved remaining contents' saved' st'') :
    st.Saved remaining (contents ++ contents') (saved + saved') st'' where
  required := by rw [recover_append, ← h.required, h'.required]
  required_add := by
    have := h.required_add
    have := h'.required_add
    omega
  needed := by rw [h'.needed, h.needed, Nat.sub_sub]
  truncated := fun ht => by
    obtain ⟨ht', hsaved'⟩ := h'.truncated ht
    obtain ⟨ht, hsaved⟩ := h.truncated ht'
    exact ⟨ht, by omega⟩

/-- One item: its form, and the account of what it saves. -/
theorem shortenItem_spec (remaining : ℕ) (id : SectionId) (st : HistoryState)
    (item : Budgeted SectionContent)
    (hrequired : contentsTokens (requiredItems [item]) ≤ st.requiredTokens) :
    ItemShortened item (shortenItem remaining id st item).1 ∧
      st.Saved remaining (historicalItems [item])
        (sectionContentTokens item.content -
          sectionContentTokens (shortenItem remaining id st item).1.content)
        (shortenItem remaining id st item).2 := by
  unfold shortenItem historicalItems
  by_cases hhistorical : item.retention = .historical
  swap
  · rw [if_pos (.inr hhistorical), filter_cons_of_neg (by simpa using hhistorical), Nat.sub_self]
    exact ⟨.inl rfl, rfl, rfl, rfl, fun h => ⟨h, rfl⟩⟩
  rw [filter_cons_of_pos (by simpa using hhistorical)]
  unfold requiredItems at hrequired
  rw [filter_cons_of_pos (by rw [hhistorical]; rfl), contentsTokens_cons] at hrequired
  by_cases hle : st.requiredTokens ≤ remaining
  · rw [if_pos (.inl hle), Nat.sub_self]
    exact ⟨.inl rfl, .refl_of_le hle _⟩
  rw [if_neg (by simpa [hhistorical] using hle)]
  have hrecover : recover remaining st.requiredTokens [item.content] =
      st.requiredTokens - (sectionContentTokens item.content -
        sectionContentTokens (shorten item.content (st.requiredTokens - remaining))) := by
    rw [recover, if_neg hle, recover]
  by_cases hsaved : sectionContentTokens item.content -
      sectionContentTokens (shorten item.content (st.requiredTokens - remaining)) = 0
  · rw [if_pos hsaved, Nat.sub_self]
    refine ⟨.inl rfl, ?_, rfl, rfl, fun h => ⟨h, rfl⟩⟩
    show _ = recover remaining st.requiredTokens [item.content]
    rw [hrecover, hsaved, Nat.sub_zero]
  · rw [if_neg hsaved]
    have hne : shorten item.content (st.requiredTokens - remaining) ≠ item.content := fun h => by
      rw [h, Nat.sub_self] at hsaved
      exact hsaved rfl
    obtain ⟨body, tokens, hbody, hform, hlt⟩ := shorten_form _ _ hne
    refine ⟨.inr ⟨hhistorical, body, tokens, hbody, ?_, hlt⟩, hrecover.symm, ?_, rfl, nofun⟩
    · rw [hform]
    · dsimp only
      omega

theorem requiredItems_cons (item : Budgeted SectionContent) (items : List (Budgeted SectionContent)) :
    contentsTokens (requiredItems (item :: items)) =
      contentsTokens (requiredItems [item]) + contentsTokens (requiredItems items) := by
  unfold requiredItems contentsTokens
  rw [← sum_append, ← map_append, ← filter_append]
  rfl

/-- The items of a section: their forms, and the account. -/
theorem shortenItems_spec (remaining : ℕ) (id : SectionId) (st : HistoryState)
    (items : List (Budgeted SectionContent))
    (hrequired : contentsTokens (requiredItems items) ≤ st.requiredTokens) :
    List.Forall₂ ItemShortened items (shortenItems remaining id st items).1 ∧
      st.Saved remaining (historicalItems items)
        (contentsTokens items - contentsTokens (shortenItems remaining id st items).1)
        (shortenItems remaining id st items).2 := by
  induction items generalizing st with
  | nil => exact ⟨.nil, rfl, rfl, rfl, fun h => ⟨h, rfl⟩⟩
  | cons item items ih =>
    rw [requiredItems_cons] at hrequired
    obtain ⟨hitem, hst⟩ := shortenItem_spec remaining id st item (by omega)
    have hadd := hst.required_add
    have hsame := contentsTokens_required (.cons hitem .nil)
    rw [contentsTokens_cons, contentsTokens_cons] at hsame
    have hle := hitem.tokens_le
    obtain ⟨hitems, hst'⟩ := ih (shortenItem remaining id st item).2 (by omega)
    have hle' := contentsTokens_shortened_le hitems
    refine ⟨.cons hitem hitems, ?_⟩
    have hcontents : historicalItems (item :: items) = historicalItems [item] ++ historicalItems items := by
      unfold historicalItems
      rw [← map_append, ← filter_append]
      rfl
    have hitems' : (shortenItems remaining id st (item :: items)).1 =
        (shortenItem remaining id st item).1 ::
          (shortenItems remaining id (shortenItem remaining id st item).2 items).1 := rfl
    have hsaved := hst.trans hst'
    rw [← hcontents] at hsaved
    rw [hitems', contentsTokens_cons, contentsTokens_cons, ← tsub_add_tsub_comm hle hle']
    exact hsaved

theorem requiredTokens_section_le (items : List (Budgeted SectionContent))
    (h : s.delivery = .userContent items) :
    contentsTokens (requiredItems items) ≤ sectionTokens (requiredSection s) := by
  unfold sectionTokens requiredSection
  rw [h]
  exact Nat.le_add_left _ _

/-- One section: its items, and the account. -/
theorem shortenSection_spec (remaining : ℕ) (st : HistoryState) (s : SectionOutput)
    (hrequired : sectionTokens (requiredSection s) ≤ st.requiredTokens) :
    SectionShortened s (shortenSection remaining st s).1 ∧
      st.Saved remaining (historicalSection s)
        (sectionTokens s - sectionTokens (shortenSection remaining st s).1)
        (shortenSection remaining st s).2 := by
  obtain ⟨id, delivery⟩ := s
  cases delivery with
  | message m =>
    refine ⟨.message id m, ?_⟩
    rw [show (shortenSection remaining st ⟨id, .message m⟩).1 = ⟨id, .message m⟩ from rfl, Nat.sub_self]
    exact ⟨rfl, rfl, rfl, fun h => ⟨h, rfl⟩⟩
  | userContent items =>
    obtain ⟨hitems, hst⟩ := shortenItems_spec remaining id st items
      ((requiredTokens_section_le _ items rfl).trans hrequired)
    refine ⟨.content id hitems, ?_⟩
    show st.Saved remaining (historicalItems items)
      (itemsTokens items - itemsTokens (shortenItems remaining id st items).1) _
    rw [itemsTokens_eq, itemsTokens_eq, ← hitems.length_eq, Nat.add_sub_add_left]
    exact hst

/-- **The history loop** shortens historical texts and keeps account of what it saves. -/
theorem shortenSections_spec (remaining : ℕ) (st : HistoryState) (sections : List SectionOutput)
    (hrequired : requiredTokens sections ≤ st.requiredTokens) :
    List.Forall₂ SectionShortened sections (shortenSections remaining st sections).1 ∧
      st.Saved remaining (historical sections)
        (estimatedTokens sections - estimatedTokens (shortenSections remaining st sections).1)
        (shortenSections remaining st sections).2 := by
  induction sections generalizing st with
  | nil => exact ⟨.nil, rfl, rfl, rfl, fun h => ⟨h, rfl⟩⟩
  | cons s sections ih =>
    rw [requiredTokens_cons] at hrequired
    obtain ⟨hs, hst⟩ := shortenSection_spec remaining st s (by omega)
    have hadd := hst.required_add
    obtain ⟨hsame, hle⟩ := hs.tokens
    obtain ⟨hsections, hst'⟩ := ih (shortenSection remaining st s).2 (by omega)
    have hle' := (estimatedTokens_shortened hsections).2
    refine ⟨.cons hs hsections, ?_⟩
    have hsaved := hst.trans hst'
    have hsections' : (shortenSections remaining st (s :: sections)).1 =
        (shortenSection remaining st s).1 ::
          (shortenSections remaining (shortenSection remaining st s).2 sections).1 := rfl
    rw [hsections', estimatedTokens_cons, estimatedTokens_cons, ← tsub_add_tsub_comm hle hle']
    exact hsaved

/-! ## The shortest history -/

/-- An item with its text in the shortest form, if it is historical. -/
def floorItem (item : Budgeted SectionContent) : Budgeted SectionContent :=
  if item.retention = .historical then { item with content := floorContent item.content } else item

/-- A section with its historical texts in their shortest form. -/
def floorSection (s : SectionOutput) : SectionOutput :=
  match s.delivery with
  | .userContent items => { s with delivery := .userContent (items.map floorItem) }
  | .message _ => s

theorem itemShortened_floorItem (item : Budgeted SectionContent) : ItemShortened item (floorItem item) := by
  unfold floorItem
  split_ifs with hhistorical
  · unfold floorContent
    cases hbody : item.content.body with
    | none => exact .inl rfl
    | some body =>
      dsimp only
      split_ifs with hlt
      · exact .inr ⟨hhistorical, body, minHistoryTokens, hbody, rfl, hlt⟩
      · exact .inl rfl
  · exact .inl rfl

theorem sectionShortened_floorSection : SectionShortened s (floorSection s) := by
  obtain ⟨id, delivery⟩ := s
  cases delivery with
  | userContent items =>
    exact .content id (forall₂_map_right_iff.2 (forall₂_same.2 fun item _ => itemShortened_floorItem item))
  | message m => exact .message id m

theorem historicalItems_cons (item : Budgeted SectionContent) (items : List (Budgeted SectionContent)) :
    historicalItems (item :: items) =
      if item.retention = .historical then item.content :: historicalItems items
      else historicalItems items := by
  unfold historicalItems
  rw [filter_cons]
  by_cases hhistorical : item.retention = .historical
  · rw [if_pos hhistorical, if_pos (decide_eq_true hhistorical)]
    rfl
  · rw [if_neg hhistorical, if_neg (by simpa using hhistorical)]

theorem contentsTokens_floorItem :
    contentsTokens (items.map floorItem) + ((historicalItems items).map saving).sum =
      contentsTokens items := by
  induction items with
  | nil => rfl
  | cons item items ih =>
    rw [map_cons, contentsTokens_cons, contentsTokens_cons, historicalItems_cons]
    unfold floorItem
    split_ifs
    · have hle := tokens_floorContent_le item.content
      rw [map_cons, sum_cons]
      unfold saving
      unfold floorItem saving at ih
      dsimp only
      omega
    · unfold floorItem at ih
      omega

theorem sectionTokens_floorSection :
    sectionTokens (floorSection s) + ((historicalSection s).map saving).sum = sectionTokens s := by
  obtain ⟨id, delivery⟩ := s
  cases delivery with
  | userContent items =>
    show itemsTokens (items.map floorItem) + ((historicalItems items).map saving).sum = itemsTokens items
    have htokens := contentsTokens_floorItem items
    rw [itemsTokens_eq, itemsTokens_eq, length_map]
    omega
  | message m => rfl

theorem estimatedTokens_floorSection :
    estimatedTokens (sections.map floorSection) + ((historical sections).map saving).sum =
      estimatedTokens sections := by
  induction sections with
  | nil => rfl
  | cons s sections ih =>
    have hs := sectionTokens_floorSection s
    rw [map_cons, estimatedTokens_cons, estimatedTokens_cons]
    unfold historical at ih ⊢
    rw [flatMap_cons, map_append, sum_append]
    omega

/-- What the shortest history saves. -/
theorem requiredTokens_floorSection :
    requiredTokens (sections.map floorSection) + ((historical sections).map saving).sum =
      requiredTokens sections := by
  have hshortened : List.Forall₂ SectionShortened sections (sections.map floorSection) :=
    forall₂_map_right_iff.2 (forall₂_same.2 fun s _ => sectionShortened_floorSection s)
  have hsame := (estimatedTokens_shortened hshortened).1
  have htotal := estimatedTokens_floorSection sections
  omega

theorem historicalItems_le :
    ((historicalItems items).map sectionContentTokens).sum ≤ contentsTokens (requiredItems items) := by
  induction items with
  | nil => exact le_rfl
  | cons item items ih =>
    rw [requiredItems_cons, historicalItems_cons]
    split_ifs with hhistorical
    · have hitem : contentsTokens (requiredItems [item]) = sectionContentTokens item.content := by
        unfold requiredItems
        rw [filter_cons_of_pos (by rw [hhistorical]; rfl), contentsTokens_cons]
        rfl
      rw [map_cons, sum_cons, hitem]
      omega
    · omega

/-- Historical evidence is part of the required evidence. -/
theorem historical_le :
    ((historical sections).map sectionContentTokens).sum ≤ requiredTokens sections := by
  induction sections with
  | nil => exact le_rfl
  | cons s sections ih =>
    have hs : ((historicalSection s).map sectionContentTokens).sum ≤ sectionTokens (requiredSection s) := by
      obtain ⟨id, delivery⟩ := s
      cases delivery with
      | userContent items =>
        exact (historicalItems_le items).trans (requiredTokens_section_le _ items rfl)
      | message m => exact Nat.zero_le _
    rw [requiredTokens_cons]
    unfold historical at ih ⊢
    rw [flatMap_cons, map_append, sum_append]
    omega

end Guardian
