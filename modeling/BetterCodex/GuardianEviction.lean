/-
# The optional evidence that leaves a Guardian request

Each removal takes the cost of the item off what is needed, and with it the framing that the other
items of the section do not need.  When every candidate has left, the required evidence is there.
-/
import BetterCodex.GuardianHistory

namespace Guardian

open RustStr JsonSize List

/-! ## Removing candidates -/

/-- A candidate of some sections. -/
def IsCandidate (sections : List SectionOutput) (c : Candidate) : Prop :=
  ∃ s, sections[c.sectionIndex]? = some s ∧ c ∈ sectionCandidates c.sectionIndex s

variable {sectionIndex : ℕ} {items : List (Budgeted SectionContent)} {c : Candidate}

theorem mem_itemCandidates :
    c ∈ itemCandidates sectionIndex items ↔ c.sectionIndex = sectionIndex ∧
      ∃ item, items[c.index]? = some item ∧ item.retention = .optional c.priority ∧
        c.tokens = sectionContentTokens item.content := by
  unfold itemCandidates
  rw [mem_filterMap]
  constructor
  · rintro ⟨⟨item, index⟩, hmem, hc⟩
    rw [mem_zipIdx_iff_getElem?] at hmem
    dsimp only at hmem hc
    split at hc
    · next priority hretention =>
      obtain rfl := Option.some.inj hc
      exact ⟨rfl, item, hmem, hretention, rfl⟩
    · cases hc
  · rintro ⟨rfl, item, hitem, hretention, htokens⟩
    refine ⟨(item, c.index), mem_zipIdx_iff_getElem?.2 hitem, ?_⟩
    dsimp only
    rw [hretention, ← htokens]

theorem index_of_mem_message {id : SectionId} {m : Budgeted NativeMessage}
    (h : c ∈ sectionCandidates sectionIndex ⟨id, .message m⟩) :
    c.index = 0 ∧ c.tokens = m.content.tokens ∧ m.retention.isOptional = true := by
  unfold sectionCandidates at h
  dsimp only at h
  split at h
  next priority hretention =>
    rw [mem_singleton.1 h, hretention]
    exact ⟨rfl, rfl, rfl⟩
  next => cases h

/-- The sections that stay. -/
def keptSections (sections : List SectionOutput) (removed : List (ℕ × ℕ)) : List SectionOutput :=
  sections.mapIdx (retainSection removed)

theorem estimatedTokens_keptSections (sections : List SectionOutput) (removed : List (ℕ × ℕ)) :
    estimatedTokens (keptSections sections removed) =
      (sections.mapIdx fun i s => sectionTokens (retainSection removed i s)).sum := by
  unfold estimatedTokens keptSections
  rw [mapIdx_eq_zipIdx_map, mapIdx_eq_zipIdx_map, map_map]
  rfl

/-- The counts are those of the items that stay. -/
structure CountsOk (sections : List SectionOutput) (removed : List (ℕ × ℕ)) (counts : List ℕ) : Prop where
  length_eq : counts.length = sections.length
  count : ∀ i id items, sections[i]? = some ⟨id, .userContent items⟩ →
    counts.getD i 0 = (keptItems removed i items).length

theorem mem_cons_iff_of_ne {position : ℕ × ℕ} (h : sectionIndex ≠ position.1)
    (removed : List (ℕ × ℕ)) (i : ℕ) :
    (sectionIndex, i) ∈ position :: removed ↔ (sectionIndex, i) ∈ removed := by
  rw [mem_cons, or_iff_right]
  rintro rfl
  exact h rfl

theorem keptItems_cons_of_ne {position : ℕ × ℕ} (h : sectionIndex ≠ position.1)
    (removed : List (ℕ × ℕ)) (items : List (Budgeted SectionContent)) :
    keptItems (position :: removed) sectionIndex items = keptItems removed sectionIndex items := by
  simp only [keptItems, mem_cons_iff_of_ne h]

theorem retainSection_cons_of_ne {position : ℕ × ℕ} (h : sectionIndex ≠ position.1)
    (removed : List (ℕ × ℕ)) (s : SectionOutput) :
    retainSection (position :: removed) sectionIndex s = retainSection removed sectionIndex s := by
  simp only [retainSection, mem_cons_iff_of_ne h, keptItems_cons_of_ne h]

theorem keptItems_perm {removed : List (ℕ × ℕ)} {index : ℕ} {item : Budgeted SectionContent}
    (hitem : items[index]? = some item) (hfresh : (sectionIndex, index) ∉ removed) :
    (keptItems removed sectionIndex items).Perm
      (item :: keptItems ((sectionIndex, index) :: removed) sectionIndex items) := by
  apply Indices.keepFrom_perm_erase hitem
  · rw [Nat.zero_add]
    exact decide_eq_true hfresh
  · rw [Nat.zero_add]
    exact decide_eq_false (not_not.2 mem_cons_self)
  · intro j hj
    rw [Nat.zero_add] at hj
    refine decide_eq_decide.2 (not_congr ?_)
    rw [mem_cons, or_iff_right]
    intro h
    exact hj (Prod.mk.inj h).2

theorem contentsTokens_perm {items' : List (Budgeted SectionContent)} (h : items.Perm items') :
    contentsTokens items = contentsTokens items' := (h.map _).sum_eq

variable {sections : List SectionOutput}

/-- A removal changes the estimate of its own section only. -/
theorem estimatedTokens_remove (removed : List (ℕ × ℕ)) (position : ℕ × ℕ) {s : SectionOutput}
    (hs : sections[position.1]? = some s) :
    estimatedTokens (keptSections sections (position :: removed)) +
        sectionTokens (retainSection removed position.1 s) =
      estimatedTokens (keptSections sections removed) +
        sectionTokens (retainSection (position :: removed) position.1 s) := by
  rw [estimatedTokens_keptSections, estimatedTokens_keptSections]
  refine Indices.sum_mapIdx_replace (f := fun i s => sectionTokens (retainSection (position :: removed) i s))
    (g := fun i s => sectionTokens (retainSection removed i s)) hs fun j s' _ hj => ?_
  rw [retainSection_cons_of_ne hj]

/-- What the removal of a message takes off the estimate. -/
theorem estimatedTokens_remove_message {removed : List (ℕ × ℕ)} {id : SectionId}
    {m : Budgeted NativeMessage} (hs : sections[sectionIndex]? = some ⟨id, .message m⟩)
    (hfresh : (sectionIndex, 0) ∉ removed) :
    estimatedTokens (keptSections sections ((sectionIndex, 0) :: removed)) + m.content.tokens =
      estimatedTokens (keptSections sections removed) := by
  have hchange := estimatedTokens_remove removed (sectionIndex, 0) hs
  have hbefore : retainSection removed sectionIndex ⟨id, .message m⟩ = ⟨id, .message m⟩ := if_neg hfresh
  have hafter : retainSection ((sectionIndex, 0) :: removed) sectionIndex ⟨id, .message m⟩ =
      ⟨id, .userContent []⟩ := if_pos mem_cons_self
  rw [hbefore, hafter] at hchange
  exact hchange

/-- The items of a section when one more is removed. -/
def itemsWithout (removed : List (ℕ × ℕ)) (c : Candidate) (items : List (Budgeted SectionContent)) : ℕ :=
  (keptItems (c.position :: removed) c.sectionIndex items).length

/-- What a removed item takes off: its content, and the framing that the others do not need. -/
def itemCost (removed : List (ℕ × ℕ)) (c : Candidate) (items : List (Budgeted SectionContent)) : ℕ :=
  c.tokens + (contentFramingTokens (itemsWithout removed c items + 1) -
    contentFramingTokens (itemsWithout removed c items))

section
variable {sections : List SectionOutput} {c : Candidate} {id : SectionId}
  {items : List (Budgeted SectionContent)} {item : Budgeted SectionContent} {removed : List (ℕ × ℕ)}
  (hs : sections[c.sectionIndex]? = some ⟨id, .userContent items⟩) (hitem : items[c.index]? = some item)
  (hfresh : c.position ∉ removed)

include hitem hfresh in
theorem length_keptItems :
    (keptItems removed c.sectionIndex items).length = itemsWithout removed c items + 1 := by
  rw [(keptItems_perm hitem hfresh).length_eq, length_cons]
  rfl

include hs hitem hfresh in
/-- What the removal of an item takes off the estimate. -/
theorem estimatedTokens_remove_item (htokens : c.tokens = sectionContentTokens item.content) :
    estimatedTokens (keptSections sections (c.position :: removed)) + itemCost removed c items =
      estimatedTokens (keptSections sections removed) := by
  have hchange : _ + itemsTokens (keptItems removed c.sectionIndex items) =
      _ + itemsTokens (keptItems (c.position :: removed) c.sectionIndex items) :=
    estimatedTokens_remove removed c.position hs
  rw [itemsTokens_eq, itemsTokens_eq, contentsTokens_perm (keptItems_perm hitem hfresh),
    contentsTokens_cons, length_keptItems hitem hfresh, ← htokens] at hchange
  replace hchange : estimatedTokens (keptSections sections (c.position :: removed)) +
        (contentFramingTokens (itemsWithout removed c items + 1) +
          (c.tokens + contentsTokens (keptItems (c.position :: removed) c.sectionIndex items))) =
      estimatedTokens (keptSections sections removed) +
        (contentFramingTokens (itemsWithout removed c items) +
          contentsTokens (keptItems (c.position :: removed) c.sectionIndex items)) := hchange
  have hframing := contentFramingTokens_mono (Nat.le_add_right (itemsWithout removed c items) 1)
  unfold itemCost
  omega

variable {st : Eviction} (hunremoved : c.position ∉ st.removed)
  (hcounts : CountsOk sections st.removed st.remainingItems)

include hs hitem hunremoved hcounts in
theorem remove_item :
    remove sections st c =
      { needed := st.needed - itemCost st.removed c items
        removed := c.position :: st.removed
        remainingItems := st.remainingItems.set c.sectionIndex (itemsWithout st.removed c items) } := by
  have hmessage : isMessage sections c.sectionIndex = false := by
    unfold isMessage
    rw [hs]
    rfl
  have hcount := hcounts.count _ _ _ hs
  rw [length_keptItems hitem hunremoved] at hcount
  unfold remove
  rw [if_neg hunremoved, hmessage, if_neg Bool.false_ne_true]
  dsimp only
  rw [hcount, Nat.add_sub_cancel]
  rfl

include hs hcounts in
/-- The count of what is left of a section follows the removal. -/
theorem CountsOk.remove_item :
    CountsOk sections (c.position :: st.removed)
      (st.remainingItems.set c.sectionIndex (itemsWithout st.removed c items)) := by
  refine ⟨length_set.trans hcounts.length_eq, ?_⟩
  intro i id' items' hi
  by_cases hne : i = c.sectionIndex
  · rw [hne, hs] at hi
    obtain ⟨-, heq⟩ := SectionOutput.mk.inj (Option.some.inj hi)
    obtain rfl := SectionDelivery.userContent.inj heq
    have hlt : c.sectionIndex < st.remainingItems.length := by
      rw [hcounts.length_eq]
      exact (List.getElem?_eq_some_iff.1 hs).1
    rw [hne, getD_eq_getElem?_getD, getElem?_set_self hlt, Option.getD_some]
    rfl
  · rw [keptItems_cons_of_ne hne, getD_eq_getElem?_getD,
      getElem?_set_ne (Ne.symm hne), ← getD_eq_getElem?_getD]
    exact hcounts.count i id' items' hi

end

/-- **Removing a candidate** takes off what it costs. -/
theorem remove_spec {st : Eviction} (hc : IsCandidate sections c)
    (hcounts : CountsOk sections st.removed st.remainingItems) :
    CountsOk sections (remove sections st c).removed (remove sections st c).remainingItems ∧
      (∀ position, position ∈ (remove sections st c).removed ↔
        position = c.position ∨ position ∈ st.removed) ∧
      ∃ saved, (remove sections st c).needed = st.needed - saved ∧
        estimatedTokens (keptSections sections (remove sections st c).removed) + saved =
          estimatedTokens (keptSections sections st.removed) := by
  obtain ⟨⟨id, delivery⟩, hs, hmem⟩ := hc
  by_cases hfresh : c.position ∈ st.removed
  · have hsame : remove sections st c = st := if_pos hfresh
    rw [hsame]
    refine ⟨hcounts, fun position => ⟨.inr, ?_⟩, 0, rfl, rfl⟩
    rintro (rfl | h)
    · exact hfresh
    · exact h
  cases delivery with
  | message m =>
    obtain ⟨hindex, htokens, -⟩ := index_of_mem_message hmem
    have hposition : c.position = (c.sectionIndex, 0) := by rw [Candidate.position, hindex]
    have hmessage : isMessage sections c.sectionIndex = true := by
      unfold isMessage
      rw [hs]
      rfl
    have hremove : remove sections st c =
        { st with removed := c.position :: st.removed, needed := st.needed - c.tokens } := by
      unfold remove
      rw [if_neg hfresh, if_pos hmessage]
    rw [hremove, htokens]
    refine ⟨⟨hcounts.length_eq, ?_⟩, fun position => mem_cons, m.content.tokens, rfl, ?_⟩
    · intro i id' items hi
      have hne : i ≠ c.sectionIndex := by
        rintro rfl
        rw [hs] at hi
        cases hi
      rw [keptItems_cons_of_ne hne]
      exact hcounts.count i id' items hi
    · rw [hposition] at hfresh ⊢
      exact estimatedTokens_remove_message hs hfresh
  | userContent items =>
    obtain ⟨-, item, hitem, -, htokens⟩ := mem_itemCandidates.1 hmem
    rw [remove_item hs hitem hfresh hcounts]
    exact ⟨hcounts.remove_item hs, fun position => mem_cons, _, rfl,
      estimatedTokens_remove_item hs hitem hfresh htokens⟩

/-! ## Evicting candidates -/

/-- The sections without the removed items are over the limit by what is needed at most, and only
candidates are removed. -/
structure EvictionOk (sections : List SectionOutput) (noticeTokens remaining : ℕ) (st : Eviction) :
    Prop where
  counts : CountsOk sections st.removed st.remainingItems
  bound : estimatedTokens (keptSections sections st.removed) + noticeTokens ≤ remaining + st.needed
  candidates : ∀ position ∈ st.removed, ∃ c, IsCandidate sections c ∧ c.position = position

section
variable {sections : List SectionOutput} {noticeTokens remaining : ℕ}

variable {st : Eviction}

/-- One removal keeps the account of what was evicted. -/
theorem EvictionOk.remove (h : EvictionOk sections noticeTokens remaining st) {c : Candidate}
    (hc : IsCandidate sections c) :
    EvictionOk sections noticeTokens remaining (remove sections st c) := by
  obtain ⟨hcounts, hremoved, saved, hneeded, htokens⟩ := remove_spec hc h.counts
  refine ⟨hcounts, ?_, ?_⟩
  · have := h.bound
    omega
  · intro position hposition
    rcases (hremoved position).1 hposition with rfl | hold
    · exact ⟨c, hc, rfl⟩
    · exact h.candidates position hold

theorem mem_remove (h : EvictionOk sections noticeTokens remaining st) {c : Candidate}
    (hc : IsCandidate sections c) (position : ℕ × ℕ) :
    position ∈ (Guardian.remove sections st c).removed ↔ position = c.position ∨ position ∈ st.removed :=
  (remove_spec hc h.counts).2.1 position

/-- The oversized candidates leave, the others are kept for later. -/
theorem evictOversized_spec (allowance : ℕ) (framing : List ℕ) {candidates : List Candidate}
    (hcandidates : ∀ c ∈ candidates, IsCandidate sections c)
    (h : EvictionOk sections noticeTokens remaining st) :
    EvictionOk sections noticeTokens remaining
        (evictOversized sections allowance framing candidates st).2 ∧
      (∀ c ∈ (evictOversized sections allowance framing candidates st).1, c ∈ candidates) ∧
      (∀ position ∈ st.removed,
        position ∈ (evictOversized sections allowance framing candidates st).2.removed) ∧
      ∀ c ∈ candidates, c ∈ (evictOversized sections allowance framing candidates st).1 ∨
        c.position ∈ (evictOversized sections allowance framing candidates st).2.removed := by
  induction candidates generalizing st with
  | nil => exact ⟨h, nofun, fun _ hposition => hposition, nofun⟩
  | cons c candidates ih =>
    obtain ⟨hc, hrest⟩ := forall_mem_cons.1 hcandidates
    rw [evictOversized]
    split_ifs with hfits
    · obtain ⟨hok, hkept, hold, hall⟩ := ih hrest h
      refine ⟨hok, ?_, hold, ?_⟩
      · exact forall_mem_cons.2 ⟨.head _, fun c' hc' => .tail _ (hkept c' hc')⟩
      · refine forall_mem_cons.2 ⟨Or.inl mem_cons_self, fun c' hc' => ?_⟩
        exact (hall c' hc').imp_left (.tail _)
    · obtain ⟨hok, hkept, hold, hall⟩ := ih hrest (h.remove hc)
      refine ⟨hok, fun c' hc' => .tail _ (hkept c' hc'), ?_, ?_⟩
      · exact fun position hposition => hold position ((mem_remove h hc position).2 (.inr hposition))
      · exact forall_mem_cons.2
          ⟨.inr (hold _ ((mem_remove h hc _).2 (.inl rfl))), hall⟩

/-- Candidates leave until nothing is needed, or all of them have left. -/
theorem evictUntilFits_spec {candidates : List Candidate}
    (hcandidates : ∀ c ∈ candidates, IsCandidate sections c)
    (h : EvictionOk sections noticeTokens remaining st) :
    EvictionOk sections noticeTokens remaining (evictUntilFits sections candidates st) ∧
      (∀ position ∈ st.removed, position ∈ (evictUntilFits sections candidates st).removed) ∧
      ((evictUntilFits sections candidates st).needed = 0 ∨
        ∀ c ∈ candidates, c.position ∈ (evictUntilFits sections candidates st).removed) := by
  induction candidates generalizing st with
  | nil => exact ⟨h, fun _ hposition => hposition, .inr nofun⟩
  | cons c candidates ih =>
    obtain ⟨hc, hrest⟩ := forall_mem_cons.1 hcandidates
    rw [evictUntilFits]
    split_ifs with hneeded
    · exact ⟨h, fun _ hposition => hposition, .inl hneeded⟩
    · obtain ⟨hok, hold, hend⟩ := ih hrest (h.remove hc)
      refine ⟨hok, ?_, hend.imp_right fun hall => ?_⟩
      · exact fun position hposition => hold position ((mem_remove h hc position).2 (.inr hposition))
      · exact forall_mem_cons.2 ⟨hold _ ((mem_remove h hc _).2 (.inl rfl)), hall⟩

/-! ## When all candidates have left -/

/-- Only candidates are removed. -/
def OnlyCandidates (sections : List SectionOutput) (removed : List (ℕ × ℕ)) : Prop :=
  ∀ position ∈ removed, ∃ c, IsCandidate sections c ∧ c.position = position

variable {removed : List (ℕ × ℕ)} {i j : ℕ} {id : SectionId}

theorem OnlyCandidates.optional_item (h : OnlyCandidates sections removed)
    {items : List (Budgeted SectionContent)} {item : Budgeted SectionContent}
    (hs : sections[i]? = some ⟨id, .userContent items⟩) (hitem : items[j]? = some item)
    (hremoved : (i, j) ∈ removed) : item.retention.isOptional = true := by
  obtain ⟨c, ⟨s, hs', hmem⟩, hposition⟩ := h _ hremoved
  obtain ⟨hi, hj⟩ := Prod.mk.inj hposition
  rw [hi, hs] at hs'
  obtain rfl := Option.some.inj hs'
  obtain ⟨-, item', hitem', hretention, -⟩ := mem_itemCandidates.1 hmem
  rw [hj, hitem] at hitem'
  rw [Option.some.inj hitem', hretention]
  rfl

theorem OnlyCandidates.optional_message (h : OnlyCandidates sections removed)
    {m : Budgeted NativeMessage} (hs : sections[i]? = some ⟨id, .message m⟩)
    (hremoved : (i, j) ∈ removed) : m.retention.isOptional = true := by
  obtain ⟨c, ⟨s, hs', hmem⟩, hposition⟩ := h _ hremoved
  obtain ⟨hi, -⟩ := Prod.mk.inj hposition
  rw [hi, hs] at hs'
  obtain rfl := Option.some.inj hs'
  exact (index_of_mem_message hmem).2.2

theorem isCandidate_item {items : List (Budgeted SectionContent)} {item : Budgeted SectionContent}
    (hs : sections[i]? = some ⟨id, .userContent items⟩) (hitem : items[j]? = some item)
    (hoptional : item.retention.isOptional = true) :
    ∃ c, IsCandidate sections c ∧ c.position = (i, j) := by
  cases hretention : item.retention with
  | required | historical => rw [hretention] at hoptional; cases hoptional
  | optional priority =>
    exact ⟨⟨priority, i, j, sectionContentTokens item.content⟩,
      ⟨_, hs, mem_itemCandidates.2 ⟨rfl, item, hitem, hretention, rfl⟩⟩, rfl⟩

theorem isCandidate_message {m : Budgeted NativeMessage} (hs : sections[i]? = some ⟨id, .message m⟩)
    (hoptional : m.retention.isOptional = true) :
    ∃ c, IsCandidate sections c ∧ c.position = (i, 0) := by
  cases hretention : m.retention with
  | required | historical => rw [hretention] at hoptional; cases hoptional
  | optional priority =>
    refine ⟨⟨priority, i, 0, m.content.tokens⟩, ⟨_, hs, ?_⟩, rfl⟩
    unfold sectionCandidates
    dsimp only
    rw [hretention]
    exact mem_singleton_self _

/-- A section without its candidates is its required part. -/
theorem retainSection_of_all (honly : OnlyCandidates sections removed)
    (hall : ∀ c, IsCandidate sections c → c.position ∈ removed) {s : SectionOutput}
    (hs : sections[i]? = some s) : retainSection removed i s = requiredSection s := by
  obtain ⟨id, delivery⟩ := s
  cases delivery with
  | userContent items =>
    unfold retainSection requiredSection requiredItems
    dsimp only
    rw [keptItems, Indices.keepAt, Indices.keepFrom_eq_filter]
    intro j item hitem
    rw [Nat.zero_add]
    by_cases hoptional : item.retention.isOptional = true
    · obtain ⟨c, hc, hposition⟩ := isCandidate_item hs hitem hoptional
      rw [hoptional, decide_eq_false (not_not.2 (hposition ▸ hall c hc))]
      rfl
    · have hkept : (i, j) ∉ removed := fun hremoved =>
        hoptional (honly.optional_item hs hitem hremoved)
      rw [Bool.not_eq_true] at hoptional
      rw [hoptional, decide_eq_true hkept]
      rfl
  | message m =>
    unfold retainSection requiredSection
    dsimp only
    by_cases hoptional : m.retention.isOptional = true
    · obtain ⟨c, hc, hposition⟩ := isCandidate_message hs hoptional
      rw [if_pos hoptional, if_pos (hposition ▸ hall c hc)]
    · rw [if_neg hoptional, if_neg fun hremoved => hoptional (honly.optional_message hs hremoved)]

/-- The sections without any candidate. -/
theorem keptSections_of_all (honly : OnlyCandidates sections removed)
    (hall : ∀ c, IsCandidate sections c → c.position ∈ removed) :
    keptSections sections removed = sections.map requiredSection := by
  unfold keptSections
  apply ext_getElem?
  intro i
  rw [getElem?_mapIdx, getElem?_map]
  cases hs : sections[i]? with
  | none => rfl
  | some s =>
    rw [Option.map_some, Option.map_some, retainSection_of_all honly hall hs]

end

/-- The candidates are the optional items and messages. -/
theorem mem_candidates :
    c ∈ (sections.mapIdx sectionCandidates).flatten ↔ IsCandidate sections c := by
  have hindex : ∀ (i : ℕ) (s : SectionOutput), c ∈ sectionCandidates i s → c.sectionIndex = i := by
    intro i s hmem
    obtain ⟨id, delivery⟩ := s
    cases delivery with
    | userContent items => exact (mem_itemCandidates.1 hmem).1
    | message m =>
      unfold sectionCandidates at hmem
      dsimp only at hmem
      split at hmem
      · rw [mem_singleton.1 hmem]
      · cases hmem
  rw [mem_flatten]
  constructor
  · rintro ⟨l, hl, hmem⟩
    obtain ⟨i, hi, rfl⟩ := mem_mapIdx.1 hl
    have hsection := hindex i _ hmem
    refine ⟨sections[i], ?_, ?_⟩
    · rw [hsection, getElem?_eq_getElem hi]
    · rw [hsection]
      exact hmem
  · rintro ⟨s, hs, hmem⟩
    obtain ⟨hi, rfl⟩ := List.getElem?_eq_some_iff.1 hs
    exact ⟨_, mem_mapIdx.2 ⟨c.sectionIndex, hi, rfl⟩, hmem⟩

/-! ## Shortening leaves the candidates alone -/

section
variable {items items' : List (Budgeted SectionContent)} {s s' : SectionOutput}
  {sections sections' : List SectionOutput}

/-- Shortening the history leaves the candidates as they are. -/
theorem itemCandidates_shortened (h : List.Forall₂ ItemShortened items items') (sectionIndex : ℕ) :
    itemCandidates sectionIndex items' = itemCandidates sectionIndex items := by
  unfold itemCandidates
  generalize 0 = start
  induction h generalizing start with
  | nil => rfl
  | @cons item item' items items' hitem _ ih =>
    rw [zipIdx_cons, zipIdx_cons, filterMap_cons, filterMap_cons, ih]
    dsimp only
    rw [hitem.retention_eq]
    cases hretention : item.retention with
    | required | historical => rfl
    | optional priority => rw [hitem.eq_of_optional (by rw [hretention]; rfl)]

theorem SectionShortened.candidates_eq (h : SectionShortened s s') (sectionIndex : ℕ) :
    sectionCandidates sectionIndex s' = sectionCandidates sectionIndex s := by
  cases h with
  | content id h => exact itemCandidates_shortened h sectionIndex
  | message id m => rfl

theorem SectionShortened.remainingItems_eq (h : SectionShortened s s') :
    remainingItemsOf s' = remainingItemsOf s := by
  cases h with
  | content id h => exact h.length_eq.symm
  | message id m => rfl

theorem candidates_shortened (h : List.Forall₂ SectionShortened sections sections') :
    sections'.mapIdx sectionCandidates = sections.mapIdx sectionCandidates := by
  refine ext_getElem (by simp [h.length_eq]) fun i hi hi' => ?_
  rw [length_mapIdx] at hi hi'
  rw [getElem_mapIdx, getElem_mapIdx]
  exact (h.get hi' hi).candidates_eq i

theorem remainingItems_shortened (h : List.Forall₂ SectionShortened sections sections') :
    sections'.map remainingItemsOf = sections.map remainingItemsOf := by
  induction h with
  | nil => rfl
  | cons hs _ ih => rw [map_cons, map_cons, hs.remainingItems_eq, ih]

theorem SectionShortened.refl (s : SectionOutput) : SectionShortened s s := by
  obtain ⟨id, delivery⟩ := s
  cases delivery with
  | userContent items => exact .content id (forall₂_same.2 fun _ _ => .inl rfl)
  | message m => exact .message id m

end

/-! ## The sections that are left -/

section
variable (sections : List SectionOutput)

theorem keptItems_nil (i : ℕ) (items : List (Budgeted SectionContent)) : keptItems [] i items = items := by
  unfold keptItems Indices.keepAt
  rw [Indices.keepFrom_eq_filter (p := fun _ => true) fun _ _ _ => rfl]
  exact filter_true items

theorem keptSections_nil : keptSections sections [] = sections := by
  apply ext_getElem (length_mapIdx ..)
  intro i hi hi'
  rw [getElem_mapIdx]
  obtain ⟨id, delivery⟩ := sections[i]
  cases delivery with
  | userContent items => exact congrArg (fun items => SectionOutput.mk id (.userContent items)) (keptItems_nil i items)
  | message m => rfl

theorem countsOk_nil : CountsOk sections [] (sections.map remainingItemsOf) where
  length_eq := length_map _
  count i id items hs := by
    rw [keptItems_nil, getD_eq_getElem?_getD, getElem?_map, hs]
    rfl

/-- **The eviction** removes candidates only and ends with sections that fit. -/
theorem evict_spec {sections} {remaining noticeTokens : ℕ} (framing : List ℕ) {st : HistoryState}
    {candidates : List Candidate} {items : List ℕ}
    (hcandidates : candidates = (sections.mapIdx sectionCandidates).flatten)
    (hitems : items = sections.map remainingItemsOf)
    (hrequired : requiredTokens sections + noticeTokens ≤ remaining)
    (hneeded : estimatedTokens sections + noticeTokens ≤ remaining + st.needed) :
    OnlyCandidates sections (evict remaining candidates framing items sections st).removed ∧
      estimatedTokens (keptSections sections (evict remaining candidates framing items sections st).removed) +
        noticeTokens ≤ remaining := by
  have hmem : ∀ c ∈ candidates, IsCandidate sections c := fun c hc =>
    mem_candidates.1 (hcandidates ▸ hc)
  have hstart : EvictionOk sections noticeTokens remaining ⟨st.needed, [], items⟩ := by
    refine ⟨hitems ▸ countsOk_nil sections, ?_, nofun⟩
    rw [keptSections_nil]
    exact hneeded
  obtain ⟨hok, hsub, -, hsplit⟩ :=
    evictOversized_spec (remaining - st.requiredTokens) framing hmem hstart
  unfold evict
  generalize evictOversized sections (remaining - st.requiredTokens) framing candidates
    ⟨st.needed, [], items⟩ = middle at hok hsub hsplit
  have hperm := perm_insertionSort (fun c c' => Candidate.le c c' = true) middle.1
  obtain ⟨hok', hold, hend⟩ :=
    evictUntilFits_spec (fun c hc => hmem c (hsub c (hperm.mem_iff.1 hc))) hok
  refine ⟨hok'.candidates, ?_⟩
  rcases hend with hnothing | hall
  · have := hok'.bound
    rw [hnothing] at this
    exact this
  · rw [keptSections_of_all hok'.candidates fun c hc => ?_]
    · exact hrequired
    · rcases hsplit c (hcandidates ▸ mem_candidates.2 hc) with hkept | hgone
      · exact hall c (hperm.mem_iff.2 hkept)
      · exact hold _ hgone

end

end Guardian
