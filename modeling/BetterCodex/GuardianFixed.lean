/-
# Fitting a Guardian request with fixed retention

A composed context that is too large loses optional evidence, and when the host has nothing else to
give up, historical texts are shortened, older ones first.  Every reduction adds an omission notice.
-/
import BetterCodex.GuardianContext

namespace Guardian

open RustStr JsonSize

/-! ## Shortening a text -/

inductive HistoryTruncation
  | preserve
  | allow
  deriving DecidableEq, Repr

/-- The loop that looks for the longest form that fits.  Every turn makes the range smaller, so its
width is enough fuel. -/
def bisect (fits : ℕ → Bool) : ℕ → ℕ → ℕ → ℕ → ℕ
  | 0, _, _, selected => selected
  | fuel + 1, lower, upper, selected =>
    if lower < upper then
      let mid := lower + (upper - lower + 1) / 2
      if fits mid then bisect fits fuel mid upper mid
      else bisect fits fuel lower (mid - 1) selected
    else selected

def minHistoryTokens : ℕ := 32

/-- The content with its text cut to some tokens. -/
def SectionContent.form (content : SectionContent) (body : Text) (tokens : ℕ) : SectionContent :=
  content.replaceText (truncateText body tokens)

/-- The tokens to which the text is cut when the content has to save `excess` tokens. -/
def selectedTokens (content : SectionContent) (body : Text) (excess : ℕ) : ℕ :=
  let target := sectionContentTokens content - excess
  let upper := tokensOfBytes (utf8Len body)
  let lower := min minHistoryTokens upper
  bisect (fun mid => sectionContentTokens (content.form body mid) ≤ target) upper lower upper lower

/-- One historical item; it stays as it is if it has no text or if no token is saved. -/
def shorten (content : SectionContent) (excess : ℕ) : SectionContent :=
  match content.body with
  | none => content
  | some body =>
    let shortened := content.form body (selectedTokens content body excess)
    if sectionContentTokens shortened < sectionContentTokens content then shortened else content

/-- Where the history loop stands. -/
structure HistoryState where
  requiredTokens : ℕ
  needed : ℕ
  truncated : Bool
  truncations : List TruncationObservation
  deriving DecidableEq

/-- One item of the history loop; the loop is left when the required evidence fits. -/
def shortenItem (remaining : ℕ) (id : SectionId) (st : HistoryState)
    (item : Budgeted SectionContent) : Budgeted SectionContent × HistoryState :=
  if st.requiredTokens ≤ remaining ∨ item.retention ≠ .historical then (item, st)
  else
    let content := shorten item.content (st.requiredTokens - remaining)
    let saved := sectionContentTokens item.content - sectionContentTokens content
    if saved = 0 then (item, st)
    else
      ({ item with content }, {
        requiredTokens := st.requiredTokens - saved
        needed := st.needed - saved
        truncated := true
        truncations := st.truncations ++
          [⟨id, item.content.evidenceBytes, content.evidenceBytes⟩] })

def shortenItems (remaining : ℕ) (id : SectionId) (st : HistoryState) :
    List (Budgeted SectionContent) → List (Budgeted SectionContent) × HistoryState
  | [] => ([], st)
  | item :: items =>
    let (item, st) := shortenItem remaining id st item
    let (items, st) := shortenItems remaining id st items
    (item :: items, st)

def shortenSection (remaining : ℕ) (st : HistoryState) (s : SectionOutput) :
    SectionOutput × HistoryState :=
  match s.delivery with
  | .message _ => (s, st)
  | .userContent items =>
    let (items, st) := shortenItems remaining s.id st items
    ({ s with delivery := .userContent items }, st)

/-- The history loop. -/
def shortenSections (remaining : ℕ) (st : HistoryState) :
    List SectionOutput → List SectionOutput × HistoryState
  | [] => ([], st)
  | s :: sections =>
    let (s, st) := shortenSection remaining st s
    let (sections, st) := shortenSections remaining st sections
    (s :: sections, st)

/-! ## Optional evidence -/

/-- An optional item that may leave. -/
structure Candidate where
  priority : BudgetPriority
  sectionIndex : ℕ
  index : ℕ
  tokens : ℕ
  deriving DecidableEq, Repr

/-- Where a candidate is. -/
def Candidate.position (c : Candidate) : ℕ × ℕ := (c.sectionIndex, c.index)

/-- The order of the candidates: by priority, then by position. -/
def Candidate.le (c c' : Candidate) : Bool :=
  decide (toLex (c.priority.rank, toLex (c.sectionIndex, toLex (c.index, c.tokens))) ≤
    toLex (c'.priority.rank, toLex (c'.sectionIndex, toLex (c'.index, c'.tokens))))

/-- The candidates among the items of a section. -/
def itemCandidates (sectionIndex : ℕ) (items : List (Budgeted SectionContent)) : List Candidate :=
  items.zipIdx.filterMap fun (item, index) =>
    match item.retention with
    | .optional priority => some ⟨priority, sectionIndex, index, sectionContentTokens item.content⟩
    | _ => none

/-- The candidates of a section. -/
def sectionCandidates (sectionIndex : ℕ) (s : SectionOutput) : List Candidate :=
  match s.delivery with
  | .userContent items => itemCandidates sectionIndex items
  | .message message =>
    match message.retention with
    | .optional priority => [⟨priority, sectionIndex, 0, message.content.tokens⟩]
    | _ => []

/-- The items that stay when the optional ones leave. -/
def requiredItems (items : List (Budgeted SectionContent)) : List (Budgeted SectionContent) :=
  items.filter fun item => !item.retention.isOptional

/-- What the required tokens lose for a section: the optional items, and the framing that the others
do not need. -/
def optionalTokens (s : SectionOutput) : ℕ :=
  match s.delivery with
  | .userContent items =>
    ((items.filter (·.retention.isOptional)).map fun item => sectionContentTokens item.content).sum +
      (contentFramingTokens items.length - contentFramingTokens (requiredItems items).length)
  | .message message => if message.retention.isOptional then message.content.tokens else 0

/-- `remaining_items` at the start. -/
def remainingItemsOf (s : SectionOutput) : ℕ :=
  match s.delivery with
  | .userContent items => items.length
  | .message message => if message.retention.isOptional then 1 else 0

/-- `candidate_framing`: what it takes to add one item to the required ones. -/
def candidateFramingOf (s : SectionOutput) : ℕ :=
  match s.delivery with
  | .userContent items =>
    contentFramingTokens ((requiredItems items).length + 1) -
      contentFramingTokens (requiredItems items).length
  | .message _ => 0

/-- Where the removal of candidates stands. -/
structure Eviction where
  needed : ℕ
  removed : List (ℕ × ℕ)
  remainingItems : List ℕ
  deriving DecidableEq, Repr

def isMessage (sections : List SectionOutput) (sectionIndex : ℕ) : Bool :=
  (sections[sectionIndex]?).any fun s =>
    match s.delivery with
    | .message _ => true
    | .userContent _ => false

/-- The closure `remove`, and what is needed after it. -/
def remove (sections : List SectionOutput) (st : Eviction) (c : Candidate) : Eviction :=
  if c.position ∈ st.removed then st
  else
    let removed := c.position :: st.removed
    if isMessage sections c.sectionIndex then
      { st with removed, needed := st.needed - c.tokens }
    else
      let count := st.remainingItems.getD c.sectionIndex 0
      { needed := st.needed -
          (c.tokens + (contentFramingTokens count - contentFramingTokens (count - 1)))
        removed
        remainingItems := st.remainingItems.set c.sectionIndex (count - 1) }

/-- The items of a section that stay. -/
def keptItems (removed : List (ℕ × ℕ)) (sectionIndex : ℕ) (items : List (Budgeted SectionContent)) :
    List (Budgeted SectionContent) :=
  Indices.keepAt (fun i => (sectionIndex, i) ∉ removed) items

/-- Candidates that do not fit beside the required evidence on their own leave first. -/
def evictOversized (sections : List SectionOutput) (allowance : ℕ) (framing : List ℕ) :
    List Candidate → Eviction → List Candidate × Eviction
  | [], st => ([], st)
  | c :: candidates, st =>
    if c.tokens + framing.getD c.sectionIndex 0 ≤ allowance then
      let (kept, st) := evictOversized sections allowance framing candidates st
      (c :: kept, st)
    else evictOversized sections allowance framing candidates (remove sections st c)

/-- Candidates leave in order as long as something is needed. -/
def evictUntilFits (sections : List SectionOutput) : List Candidate → Eviction → Eviction
  | [], st => st
  | c :: candidates, st =>
    if st.needed = 0 then st else evictUntilFits sections candidates (remove sections st c)

/-- A section without the removed items. -/
def retainSection (removed : List (ℕ × ℕ)) (sectionIndex : ℕ) (s : SectionOutput) : SectionOutput :=
  match s.delivery with
  | .message _ =>
    if (sectionIndex, 0) ∈ removed then { s with delivery := .userContent [] } else s
  | .userContent items =>
    { s with delivery := .userContent (keptItems removed sectionIndex items) }

/-- What is reported about the removed items of a section. -/
def removalObservations (removed : List (ℕ × ℕ)) (sectionIndex : ℕ) (s : SectionOutput) :
    List TruncationObservation :=
  match s.delivery with
  | .message message =>
    if (sectionIndex, 0) ∈ removed then [⟨s.id, message.content.bytes, 0⟩] else []
  | .userContent items =>
    (Indices.keepAt (fun i => (sectionIndex, i) ∈ removed) items).map fun item =>
      ⟨s.id, item.content.evidenceBytes, 0⟩

/-- The section of the omission notice. -/
def noticeSection (omissionNotice : Text) : SectionOutput :=
  ⟨.budgetOmission, .userContent [.required (.other (.inputText omissionNotice))]⟩

/-! ## The whole -/

/-- The eviction of optional evidence from sections whose required part fits. -/
def evict (remaining : ℕ) (candidates : List Candidate) (framing items : List ℕ)
    (sections : List SectionOutput) (st : HistoryState) : Eviction :=
  let (kept, eviction) := evictOversized sections (remaining - st.requiredTokens) framing candidates
    ⟨st.needed, [], items⟩
  evictUntilFits sections (kept.insertionSort fun c c' => c.le c') eviction

/-- `ComposedContext::enforce_budget`. -/
def enforceBudget (context : ComposedContext) (budget : RequestBudget) (omissionNotice : Text)
    (historyTruncation : HistoryTruncation) : Except SectionError ComposedContext :=
  if budget.maxInputTokens < budget.existingContextTokens then .error .requestBudget
  else
    let remaining := budget.maxInputTokens - budget.existingContextTokens
    let current := estimatedTokens context.sections
    if current ≤ remaining then .ok context
    else
      let notice := noticeSection omissionNotice
      let total := current + sectionTokens notice
      let requiredTokens := total - (context.sections.map optionalTokens).sum
      let candidates := (context.sections.mapIdx sectionCandidates).flatten
      let items := context.sections.map remainingItemsOf
      let framing := context.sections.map candidateFramingOf
      let st : HistoryState := ⟨requiredTokens, total - remaining, false, context.truncations⟩
      let (sections, st) :=
        if historyTruncation = .allow ∧ remaining < requiredTokens then
          shortenSections remaining st context.sections
        else (context.sections, st)
      if remaining < st.requiredTokens then .error .requestBudget
      else
        let removed := (evict remaining candidates framing items sections st).removed
        if removed = [] ∧ st.truncated = false then .error .requestBudget
        else
          let kept := sections.mapIdx (retainSection removed) ++ [notice]
          if remaining < estimatedTokens kept then .error .requestBudget
          else .ok ⟨kept, st.truncations ++ (sections.mapIdx (removalObservations removed)).flatten⟩

end Guardian
