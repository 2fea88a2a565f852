/-
# The context manager

The live history of a thread with the marks it keeps beside the items: how many of
them the last server-reported token usage covers, where the last model output ends,
the reference context and the world-state baseline.
-/
import BetterCodex.NormalizeHistory
import BetterCodex.Runs

namespace History

open RustStr ResponseItem Runs Option

/-! ## State -/

/-- `TokenUsageInfo`, the fields that the estimate reads. -/
structure TokenUsageInfo where
  lastTotalTokens : ℤ
  lastUsageIncludesReasoning : Option Bool
  deriving DecidableEq, Repr

structure ContextManager (Opaque Ctx World : Type) where
  items : List (Envelope Opaque) := []
  tokenInfo : Option TokenUsageInfo := none
  lastServerReportedUsageItemCount : ℕ := 0
  lastModelOutputItemCount : Option ℕ := none
  referenceContextItem : Option Ctx := none
  worldStateBaseline : Option World := none

/-- What the operations take from elsewhere: text recognisers, the truncation of tool
outputs, token estimates and item ids. -/
structure Services (Opaque : Type) where
  recognizers : Recognizers Opaque
  /-- `truncate_function_output_payload` under the policy, or under a limit of its own. -/
  truncate : Option ℕ → OutputPayload Opaque → OutputPayload Opaque
  estimateItemTokenCount : ResponseItem Opaque → ℤ
  idWithSuffix : Text → Text → Text

variable {Opaque Ctx World : Type}

/-- `RetainedInputSource::from(..).acceptance_order()`. -/
def acceptanceOrder (metadata : Option (HarnessMetadata Opaque)) : Option ℕ :=
  if metadata.any (·.inheritedUserMessage) then none else metadata.bind (·.userInputOrder)

namespace ContextManager

/-! ## Recording and replacing -/

variable (m : ContextManager Opaque Ctx World)

def resetLastUsageBoundary : ContextManager Opaque Ctx World :=
  { m with
    lastModelOutputItemCount := lastModelOutput m.items
    lastServerReportedUsageItemCount := (lastModelOutput m.items).getD m.items.length }

variable (srv : Services Opaque)

/-- The item as it is recorded: tool outputs are truncated. -/
def processed (e : Envelope Opaque) : Envelope Opaque :=
  let limit := e.metadata.bind (·.historyTruncationTokenLimit)
  match e.item with
  | .functionCallOutput id callId name space output p =>
    { e with item := .functionCallOutput id callId name space (srv.truncate limit output) p }
  | .customToolCallOutput id callId name output p =>
    { e with item := .customToolCallOutput id callId name (srv.truncate limit output) p }
  | _ => e

/-- `record_item_with_metadata`. -/
def recordItem (m : ContextManager Opaque Ctx World) (e : Envelope Opaque) :
    ContextManager Opaque Ctx World :=
  if e.item.isApiMessage e.metadata then
    { m with
      items := m.items ++ [processed srv e]
      lastModelOutputItemCount :=
        if (processed srv e).item.isModelGeneratedItem then some (m.items.length + 1)
        else m.lastModelOutputItemCount }
  else m

/-- `record_items`, `record_annotated_items`. -/
def recordItems (m : ContextManager Opaque Ctx World)
    (items : List (Envelope Opaque)) : ContextManager Opaque Ctx World :=
  items.foldl (recordItem srv) m

variable (items : List (Envelope Opaque))

def replaceAnnotated : ContextManager Opaque Ctx World :=
  { ({ m with items } : ContextManager Opaque Ctx World).resetLastUsageBoundary with
    worldStateBaseline := none }

def replaceCompacted : ContextManager Opaque Ctx World :=
  m.replaceAnnotated items

/-! ## Removing -/

def removeFirstMatching (p : ResponseItem Opaque → Bool) (items : List (Envelope Opaque)) :
    List (Envelope Opaque) :=
  items.eraseP (p ·.item)

def removeCorrespondingFor (item : ResponseItem Opaque) (items : List (Envelope Opaque)) :
    List (Envelope Opaque) :=
  match item.callKey, item.outputKey with
  | some key, _ => removeFirstMatching (·.outputKey == some key) items
  | none, some (.function, callId) =>
    -- a function call is preferred over a local shell call
    if items.any fun e => isFunctionCall callId e.item then
      removeFirstMatching (isFunctionCall callId) items
    else removeFirstMatching (·.callKey == some (.function, callId)) items
  | none, some key => removeFirstMatching (·.callKey == some key) items
  | none, none => items
where
  isFunctionCall (callId : Text) : ResponseItem Opaque → Bool
    | .functionCall _ existing _ _ => existing == callId
    | _ => false

def removeFirstItem : ContextManager Opaque Ctx World :=
  match m.items with
  | [] => m
  | removed :: items =>
    { ({ m with items := removeCorrespondingFor removed.item items } :
        ContextManager Opaque Ctx World).resetLastUsageBoundary with
      worldStateBaseline := none }

/-! ## Rolling back turns -/

def userMessagePositions (recog : Recognizers Opaque) (items : List (Envelope Opaque)) : List ℕ :=
  (items.zipIdx.filter fun e => isUserTurnBoundary recog e.1.item).map (·.2)

/-- `trim_pre_turn_context_updates`: the cut and the reference context afterwards. -/
def trimPreTurnContextUpdates (recog : Recognizers Opaque) (snapshot : List (Envelope Opaque))
    (first : ℕ) : ℕ → Option Ctx → ℕ × Option Ctx
  | 0, reference => (0, reference)
  | cut + 1, reference =>
    if first < cut + 1 then
      match snapshot[cut]? with
      | some ⟨.message _ role content passthrough _, _⟩ =>
        if role = "developer".toList then
          let kinds := (passthrough.bind (·.contentItemKinds)).getD []
          let contextual := (recog.contextualDevFragments content kinds).count true
          if contextual = 0 then (cut + 1, reference)
          else trimPreTurnContextUpdates recog snapshot first cut
            (if contextual < content.length then none else reference)
        else if role = "user".toList ∧ recog.isContextualUserMessage content then
          trimPreTurnContextUpdates recog snapshot first cut reference
        else (cut + 1, reference)
      | _ => (cut + 1, reference)
    else (cut + 1, reference)

/-- Assistant messages and function calls accepted after the boundary go with it. -/
def isBefore (boundary : Option ℕ) (e : Envelope Opaque) : Bool :=
  !boundary.any fun boundary =>
    (match e.item with
      | .message _ role _ _ _ => role == "assistant".toList
      | .functionCall .. => true
      | _ => false)
    && (acceptanceOrder e.metadata).any (boundary ≤ ·)

/-- The developer messages of the first turn lose the texts that the next step rebuilds. -/
def withoutModelText (recog : Recognizers Opaque) (turnId : Text) (e : Envelope Opaque) :
    Option (Envelope Opaque) :=
  match e.item with
  | .message _ role _ _ _ =>
    if e.item.turnId = some turnId ∧ role = "developer".toList then
      let contents := (e.item.toAnnotatedContent.getD []).filter fun c =>
        match c.content with
        | .inputText text => !recog.isModelOrModeText text
        | _ => true
      if contents.isEmpty then none else some (e.mapItem (·.setAnnotatedContent contents))
    else some e
  | _ => some e

def dropLastNUserTurns (m : ContextManager Opaque Ctx World) (numTurns : ℕ) :
    ContextManager Opaque Ctx World :=
  if numTurns = 0 then m
  else
    match userMessagePositions srv.recognizers m.items with
    | [] => m.replaceAnnotated m.items
    | first :: rest =>
      let positions := first :: rest
      let boundary := if positions.length ≤ numTurns then first
        else positions.getD (positions.length - numTurns) first
      let source := acceptanceOrder (m.items[boundary]?.bind (·.metadata))
      let (cut, reference) :=
        trimPreTurnContextUpdates srv.recognizers m.items first boundary m.referenceContextItem
      let retained := (m.items.take cut).filter (isBefore source)
      let retained := match m.items[first]?.bind (·.item.turnId) with
        | some turnId =>
          if cut = first then retained.filterMap (withoutModelText srv.recognizers turnId)
          else retained
        | none => retained
      ({ m with referenceContextItem := reference } : ContextManager Opaque Ctx World).replaceAnnotated
        retained

/-! ## Token usage -/

/-- `update_token_info`: the boundary covers the request and the model output. -/
def updateTokenInfo (totalTokens : ℤ)
    (includesReasoning : Bool) (inputItemCount : ℕ) : ContextManager Opaque Ctx World :=
  { m with
    tokenInfo := some ⟨totalTokens, some includesReasoning⟩
    lastServerReportedUsageItemCount := max (m.lastModelOutputItemCount.getD 0) inputItemCount }

/-- `i64::saturating_add`. -/
def saturatingAdd (a b : ℤ) : ℤ := max (-2 ^ 63) (min (2 ^ 63 - 1) (a + b))

/-- `items_since_last_usage`; slicing past the end panics. -/
def itemsSinceLastUsage : Option (List (Envelope Opaque)) :=
  if m.lastServerReportedUsageItemCount ≤ m.items.length then
    some (m.items.drop m.lastServerReportedUsageItemCount)
  else none

/-- The estimate of a list of items. -/
def estimate : ℤ :=
  (items.map (srv.estimateItemTokenCount ·.item)).foldl saturatingAdd 0

/-- `get_non_last_reasoning_items_tokens`. -/
def nonLastReasoningItemsTokens (m : ContextManager Opaque Ctx World) : ℤ :=
  match (userMessagePositions srv.recognizers m.items).getLast? with
  | none => 0
  | some lastUser =>
    estimate srv ((m.items.take (min lastUser m.lastServerReportedUsageItemCount)).filter fun e =>
      match e.item with
      | .reasoning _ (some _) _ _ => true
      | _ => false)

/-- `get_total_token_usage`. -/
def totalTokenUsage (m : ContextManager Opaque Ctx World) : Option ℤ := do
  let lastTokens := (m.tokenInfo.map (·.lastTotalTokens)).getD 0
  let unreported := estimate srv (← m.itemsSinceLastUsage)
  return if m.tokenInfo.any (·.lastUsageIncludesReasoning == some true) then
    saturatingAdd lastTokens unreported
  else
    saturatingAdd (saturatingAdd lastTokens (m.nonLastReasoningItemsTokens srv)) unreported

/-- `normalize_history` in place; a debug build may panic. -/
def normalize (debug : Bool) (m : ContextManager Opaque Ctx World)
    (modalities : List InputModality) : Option (ContextManager Opaque Ctx World) :=
  match normalizeHistory srv.idWithSuffix debug modalities m.items with
  | .ok (items, lastModelOutput) =>
    some { m with items, lastModelOutputItemCount := lastModelOutput }
  | .error _ => none

/-! ## Sequences of operations -/

/-- The operations on a context manager. -/
inductive Op (Opaque : Type) where
  | recordItems (items : List (Envelope Opaque))
  | replace (items : List (Envelope Opaque))
  | replaceCompacted (items : List (Envelope Opaque))
  | removeFirstItem
  | dropLastNUserTurns (numTurns : ℕ)
  | updateTokenInfo (totalTokens : ℤ) (includesReasoning : Bool) (inputItemCount : ℕ)
  /-- `for_prompt` takes the manager by value: callers pass a copy of theirs. -/
  | forPrompt (modalities : List InputModality)
  /-- `normalize_history` on the manager itself. -/
  | normalizeHistory (modalities : List InputModality)

/-- One operation. -/
def step (debug : Bool) (m : ContextManager Opaque Ctx World) :
    Op Opaque → Option (ContextManager Opaque Ctx World)
  | .recordItems items => some (m.recordItems srv items)
  | .replace items => some (m.replaceAnnotated items)
  | .replaceCompacted items => some (m.replaceCompacted items)
  | .removeFirstItem => some m.removeFirstItem
  | .dropLastNUserTurns numTurns => some (m.dropLastNUserTurns srv numTurns)
  | .updateTokenInfo totalTokens includesReasoning inputItemCount =>
    some (m.updateTokenInfo totalTokens includesReasoning inputItemCount)
  | .forPrompt modalities => (m.normalize srv debug modalities).map fun _ => m
  | .normalizeHistory modalities => m.normalize srv debug modalities

/-- An `update_token_info` passes at most the current number of items. -/
def CountFits : Op Opaque → Prop
  | .updateTokenInfo _ _ inputItemCount => inputItemCount ≤ m.items.length
  | _ => True

/-- The outputs that a normalisation drops. -/
def orphanCount : ℕ :=
  items.countP fun e => isOrphan (items.filterMap (·.item.callKey)) e.item

/-- The outputs that a normalisation inserts. -/
def missingCount : ℕ :=
  items.countP fun e => lacksOutput (items.filterMap (·.item.outputKey)) e.item

/-- A normalisation in place drops no more outputs than it inserts and than there are
items behind the usage boundary. -/
def KeepsBoundary : Op Opaque → Prop
  | .normalizeHistory _ =>
    m.lastServerReportedUsageItemCount + orphanCount m.items ≤
      m.items.length + missingCount m.items
  | _ => True

/-- The mark behind the last model output lies inside the history. -/
def ModelOutputInside : Prop :=
  m.lastModelOutputItemCount.getD 0 ≤ m.items.length

/-- The usage boundary lies inside the history. -/
def UsageInside : Prop :=
  m.lastServerReportedUsageItemCount ≤ m.items.length

/-- The marks that lie inside the history stay inside. -/
def KeepsMarks (m m' : ContextManager Opaque Ctx World) : Prop :=
  (ModelOutputInside m → ModelOutputInside m') ∧ (UsageInside m → UsageInside m')

theorem lastModelOutput_le :
    (lastModelOutput items).getD 0 ≤ items.length ∧
      (lastModelOutput items).getD items.length ≤ items.length := by
  rw [lastModelOutput]
  cases items.reverse.findIdx? (isModelGeneratedItem ·.item) <;> simp

theorem keepsMarks_replaceAnnotated (m m₀ : ContextManager Opaque Ctx World)
    (items : List (Envelope Opaque)) : KeepsMarks m (m₀.replaceAnnotated items) :=
  ⟨fun _ => (lastModelOutput_le items).1, fun _ => (lastModelOutput_le items).2⟩

theorem keepsMarks_recordItem (m : ContextManager Opaque Ctx World)
    (e : Envelope Opaque) : KeepsMarks m (m.recordItem srv e) := by
  have hlonger : (m.items ++ [processed srv e]).length = m.items.length + 1 := by simp
  rw [recordItem]
  split_ifs
  · exact ⟨fun _ => hlonger.ge, fun h => by rw [UsageInside] at h ⊢; simp only [hlonger]; omega⟩
  · exact ⟨fun h => by rw [ModelOutputInside] at h ⊢; simp only [hlonger]; omega,
      fun h => by rw [UsageInside] at h ⊢; simp only [hlonger]; omega⟩
  · exact ⟨id, id⟩

theorem keepsMarks_recordItems (m : ContextManager Opaque Ctx World)
    (items : List (Envelope Opaque)) : KeepsMarks m (m.recordItems srv items) := by
  induction items generalizing m with
  | nil => exact ⟨id, id⟩
  | cons e items ih =>
    obtain ⟨hmodel, husage⟩ := keepsMarks_recordItem srv m e
    obtain ⟨hmodel', husage'⟩ := ih (m.recordItem srv e)
    exact ⟨hmodel' ∘ hmodel, husage' ∘ husage⟩

theorem keepsMarks_removeFirstItem : KeepsMarks m m.removeFirstItem := by
  rw [removeFirstItem]
  split
  · exact ⟨id, id⟩
  · exact ⟨fun _ => (lastModelOutput_le _).1, fun _ => (lastModelOutput_le _).2⟩

theorem keepsMarks_dropLastNUserTurns (m : ContextManager Opaque Ctx World)
    (numTurns : ℕ) : KeepsMarks m (m.dropLastNUserTurns srv numTurns) := by
  rw [dropLastNUserTurns]
  split_ifs
  · exact ⟨id, id⟩
  · split
    · exact keepsMarks_replaceAnnotated _ _ _
    · exact keepsMarks_replaceAnnotated _ _ _

variable {srv : Services Opaque} {debug : Bool} {m m' : ContextManager Opaque Ctx World}

theorem normalize_some {modalities : List InputModality}
    (h : m.normalize srv debug modalities = some m') :
    m' = { m with
      items := normalizedItems srv.idWithSuffix modalities m.items
      lastModelOutputItemCount :=
        lastModelOutput (normalizedItems srv.idWithSuffix modalities m.items) } := by
  rw [normalize] at h
  split at h
  · rename_i items last hok
    obtain ⟨rfl, rfl⟩ := Prod.mk.inj (normalizeHistory_ok hok)
    exact (some.inj h).symm
  · cases h

/-- Normalising adds the missing outputs and drops the orphans. -/
theorem length_normalizedItems (idWithSuffix : Text → Text → Text)
    (modalities : List InputModality) (items : List (Envelope Opaque)) :
    (normalizedItems idWithSuffix modalities items).length + orphanCount items =
      items.length + missingCount items := by
  have hitem : ∀ outputs (e : Envelope Opaque),
      (normalizedItem idWithSuffix modalities outputs e).length =
        1 + if lacksOutput outputs e.item then 1 else 0 := by
    intro outputs e
    rw [normalizedItem, List.length_cons, missingOutput]
    split_ifs with hlacks
    · obtain ⟨key, hkey, -⟩ := any_eq_true _ _ |>.1 hlacks
      obtain ⟨output, houtput⟩ : ∃ output, synthesizedOutput idWithSuffix e.item = some output :=
        synthesizedOutput_of_callKey hkey
      simp [houtput]
    · rfl
  have hlength : ∀ outputs (kept : List (Envelope Opaque)),
      (kept.flatMap (normalizedItem idWithSuffix modalities outputs)).length =
        kept.length + kept.countP fun e => lacksOutput outputs e.item := by
    intro outputs kept
    induction kept with
    | nil => rfl
    | cons e kept ih =>
      rw [List.flatMap_cons, List.length_append, ih, hitem, List.countP_cons, List.length_cons]
      omega
  -- no orphan lacks an output
  have hcalls : (surviving items).countP
      (fun e => lacksOutput (items.filterMap (·.item.outputKey)) e.item) = missingCount items := by
    rw [surviving, List.countP_filter, missingCount]
    refine List.countP_congr fun e _ => ?_
    constructor
    · intro h
      exact (Bool.and_eq_true_iff.1 h).1
    · intro h
      obtain ⟨key, hkey, -⟩ := any_eq_true _ _ |>.1 h
      rw [h, isOrphan, outputKey_eq_none_of_callKey hkey]
      simp
  have hsurviving : (surviving items).length + orphanCount items = items.length := by
    rw [surviving, orphanCount, ← List.countP_eq_length_filter]
    have := List.length_eq_countP_add_countP
      (fun e : Envelope Opaque => isOrphan (items.filterMap (·.item.callKey)) e.item) (l := items)
    simp only [Bool.not_eq_true, Bool.decide_eq_false] at this
    omega
  rw [normalizedItems, hlength, hcalls]
  omega

variable {op : Op Opaque}

/-- Every operation but the update of the usage and the normalisation in place keeps
both marks inside the history. -/
theorem keepsMarks_step (h : step srv debug m op = some m')
    (hupdate : ∀ total includes count, op ≠ .updateTokenInfo total includes count)
    (hnormalize : ∀ modalities, op ≠ .normalizeHistory modalities) : KeepsMarks m m' := by
  cases op with
  | recordItems items => exact some.inj h ▸ keepsMarks_recordItems srv m items
  | replace items => exact some.inj h ▸ keepsMarks_replaceAnnotated m m items
  | replaceCompacted items => exact some.inj h ▸ keepsMarks_replaceAnnotated m m items
  | removeFirstItem => exact some.inj h ▸ keepsMarks_removeFirstItem m
  | dropLastNUserTurns numTurns =>
    exact some.inj h ▸ keepsMarks_dropLastNUserTurns srv m numTurns
  | updateTokenInfo total includes count => exact absurd rfl (hupdate total includes count)
  | forPrompt modalities =>
    obtain ⟨_, -, rfl⟩ := map_eq_some_iff.1 h
    exact ⟨id, id⟩
  | normalizeHistory modalities => exact absurd rfl (hnormalize modalities)

/-- The mark of the model output stays inside under every operation. -/
theorem modelOutputInside_step (hm : ModelOutputInside m) (h : step srv debug m op = some m') :
    ModelOutputInside m' := by
  cases op with
  | updateTokenInfo total includes count =>
    obtain rfl := some.inj h
    exact hm
  | normalizeHistory modalities =>
    obtain rfl := normalize_some h
    exact (lastModelOutput_le _).1
  | _ => exact (keepsMarks_step h nofun nofun).1 hm

/-- **One operation keeps the usage boundary inside the history**, and an in-place
normalisation does so exactly under its condition. -/
theorem usageInside_step (hm : UsageInside m) (hmodel : ModelOutputInside m)
    (hcount : CountFits m op) (h : step srv debug m op = some m') :
    UsageInside m' ↔ KeepsBoundary m op := by
  cases op with
  | updateTokenInfo total includes count =>
    obtain rfl := some.inj h
    exact iff_of_true (max_le hmodel hcount) trivial
  | normalizeHistory modalities =>
    obtain rfl := normalize_some h
    have hlength := length_normalizedItems srv.idWithSuffix modalities m.items
    simp only [KeepsBoundary, UsageInside]
    omega
  | _ => exact iff_of_true ((keepsMarks_step h nofun nofun).2 hm) trivial

theorem totalTokenUsage_isSome (srv : Services Opaque) (m : ContextManager Opaque Ctx World) :
    (m.totalTokenUsage srv).isSome = true ↔ UsageInside m := by
  rw [totalTokenUsage, itemsSinceLastUsage, UsageInside]
  split_ifs with h <;> simp [h]

def new : ContextManager Opaque Ctx World := {}

/-- **The usage boundary.**  Take any completed sequence of operations on a new
manager in which every `update_token_info` passes at most the current number of items.
The usage boundary is inside the history after each of them, so that
`get_total_token_usage` returns, exactly if no in-place `normalize_history` drops more
orphan outputs than it inserts outputs and than there are unreported items.
Normalising a copy for a prompt, as `for_prompt` does, never matters. -/
theorem usage_boundary_iff (srv : Services Opaque) (debug : Bool) (ops : List (Op Opaque))
    (last : ContextManager Opaque Ctx World) (hrun : run (step srv debug) new ops = some last)
    (hcounts : Along (step srv debug) CountFits (new : ContextManager Opaque Ctx World) ops) :
    (∀ front, front <+: ops → ∀ m : ContextManager Opaque Ctx World,
      run (step srv debug) new front = some m →
        m.lastServerReportedUsageItemCount ≤ m.items.length ∧ (m.totalTokenUsage srv).isSome = true) ↔
      Along (step srv debug) KeepsBoundary (new : ContextManager Opaque Ctx World) ops := by
  have hgood : Along (step srv debug) (fun m op => CountFits m op ∧ ModelOutputInside m)
      (new : ContextManager Opaque Ctx World) ops :=
    Along.of_invariant (fun s e s' hs _ he => modelOutputInside_step hs he)
      (fun s e hs hcount => ⟨hcount, hs⟩) (Nat.zero_le _) hcounts
  have hiff : (∀ front, front <+: ops → ∀ m : ContextManager Opaque Ctx World,
      run (step srv debug) new front = some m → UsageInside m) ↔
        Along (step srv debug) KeepsBoundary (new : ContextManager Opaque Ctx World) ops :=
    along_iff_prefixes (fun s e s' hs hgood he => usageInside_step hs hgood.2 hgood.1 he)
      (Nat.zero_le _) hgood hrun
  rw [← hiff]
  refine forall_congr' fun front => forall_congr' fun _ => forall_congr' fun m =>
    forall_congr' fun _ => ?_
  rw [totalTokenUsage_isSome]
  exact and_self_iff

/-- Services that recognise nothing and estimate one token an item. -/
def plainServices : Services Unit where
  recognizers :=
    { isContextualUserMessage := fun _ => false
      isSummaryMessage := fun _ => false
      isInterAgentInstruction := fun _ => false
      contextualDevFragments := fun _ _ => []
      isModelOrModeText := fun _ => false }
  truncate := fun _ output => output
  estimateItemTokenCount := fun _ => 1
  idWithSuffix := fun kind _ => kind

/-- An output of a function call. -/
def callOutput (callId : Text) : Envelope Unit :=
  .new (.functionCallOutput none (some callId) none none (.fromText "done".toList) none)

/-- A function call. -/
def call (callId : Text) : Envelope Unit := .new (.functionCall none callId none ())

/-- The theorem at a call with its output that is normalised in place. -/
theorem usage_boundary_call :
    ∃ m : ContextManager Unit Unit Unit,
      run (step plainServices true) new [.recordItems [call ['c'], callOutput ['c']],
        .updateTokenInfo 10 true 2, .normalizeHistory []] = some m ∧
      (m.totalTokenUsage plainServices).isSome = true := by
  have hcounts : Along (step plainServices true) CountFits
      (new : ContextManager Unit Unit Unit) [.recordItems [call ['c'], callOutput ['c']],
        .updateTokenInfo 10 true 2, .normalizeHistory []] := by
    refine ⟨trivial, fun m hm => ?_⟩
    obtain rfl := some.inj hm
    exact ⟨le_rfl, fun m hm => ⟨trivial, fun m hm => trivial⟩⟩
  have hkeeps : Along (step plainServices true) KeepsBoundary
      (new : ContextManager Unit Unit Unit) [.recordItems [call ['c'], callOutput ['c']],
        .updateTokenInfo 10 true 2, .normalizeHistory []] := by
    refine ⟨trivial, fun m hm => ?_⟩
    obtain rfl := some.inj hm
    refine ⟨trivial, fun m hm => ?_⟩
    obtain rfl := some.inj hm
    exact ⟨by rw [KeepsBoundary]; decide, fun m hm => trivial⟩
  have hrun : (run (step plainServices true) (new : ContextManager Unit Unit Unit)
      [.recordItems [call ['c'], callOutput ['c']], .updateTokenInfo 10 true 2,
        .normalizeHistory []]).isSome = true := by decide
  obtain ⟨m, hm⟩ := isSome_iff_exists.1 hrun
  have hall := (usage_boundary_iff plainServices true _ m hm hcounts).2 hkeeps
  exact ⟨m, hm, (hall _ (List.prefix_refl _) m hm).2⟩

/-- An orphan output covered by the reported usage: normalising in place drops it, the
boundary stays behind the end, and the estimate panics. -/
theorem usage_boundary_past_end :
    (run (step plainServices false) (new : ContextManager Unit Unit Unit)
      [.recordItems [callOutput ['c']], .updateTokenInfo 10 true 1, .normalizeHistory []]).map
      (fun m => (m.lastServerReportedUsageItemCount, m.items.length,
        (m.totalTokenUsage plainServices).isSome)) = some (1, 0, false) := by
  decide

/-! ## Removing keeps calls and outputs paired -/

open List

/-- Two lists of keys: no call id is twice in one of them, and they have the same keys. -/
structure SameKeys (keys keys' : List (CallKind × Text)) : Prop where
  left : (keys.map Prod.snd).Nodup
  right : (keys'.map Prod.snd).Nodup
  same : ∀ key, key ∈ keys ↔ key ∈ keys'

/-- A call id belongs to at most one call and at most one output, every call has the output
that it asks for, and every output has its call. -/
def Paired : Prop :=
  SameKeys (items.filterMap (·.item.callKey)) (items.filterMap (·.item.outputKey))

theorem SameKeys.symm {keys keys' : List (CallKind × Text)} (h : SameKeys keys keys') :
    SameKeys keys' keys :=
  ⟨h.right, h.left, fun key => (h.same key).symm⟩

/-- A key that leaves both sides. -/
theorem SameKeys.drop {key : CallKind × Text} {keys keys' rest : List (CallKind × Text)}
    (h : SameKeys (key :: keys) keys') (hrest : keys' ~ key :: rest) : SameKeys keys rest := by
  have hright : ((key :: rest).map Prod.snd).Nodup := (hrest.map _).nodup_iff.1 h.right
  have hleft := nodup_cons.1 (Nodup.of_map _ h.left)
  have hkey := nodup_cons.1 (Nodup.of_map _ hright)
  refine ⟨(nodup_cons.1 h.left).2, (nodup_cons.1 hright).2, fun other => ?_⟩
  have hsame := (h.same other).trans hrest.mem_iff
  rw [mem_cons, mem_cons] at hsame
  constructor
  · intro hmem
    exact (hsame.1 (.inr hmem)).resolve_left fun heq => hleft.1 (heq ▸ hmem)
  · intro hmem
    exact (hsame.2 (.inr hmem)).resolve_left fun heq => hkey.1 (heq ▸ hmem)

/-- The counterpart of a removed key is erased. -/
theorem SameKeys.eraseP {α : Type} {f g : α → Option (CallKind × Text)} {p : α → Bool} {l : List α}
    {key : CallKind × Text} (h : SameKeys (key :: l.filterMap f) (l.filterMap g))
    (hp : ∀ a, p a = true → g a = some key ∧ f a = none) (hmem : ∃ a ∈ l, p a = true) :
    SameKeys ((l.eraseP p).filterMap f) ((l.eraseP p).filterMap g) := by
  obtain ⟨a, ha, hpa⟩ := hmem
  obtain ⟨b, front, back, -, hb, rfl, herase⟩ := exists_of_eraseP ha hpa
  rw [herase]
  simp only [filterMap_append, filterMap_cons_some (hp b hb).1, filterMap_cons_none (hp b hb).2] at h ⊢
  exact h.drop perm_middle

variable {removed : Envelope Opaque} {items : List (Envelope Opaque)} {key : CallKind × Text}

theorem callKey_eq_none_of_outputKey {item : ResponseItem Opaque} (h : item.outputKey = some key) :
    item.callKey = none := by
  cases hcall : item.callKey with
  | none => rfl
  | some key' => cases (outputKey_eq_none_of_callKey hcall).symm.trans h

theorem removeCorrespondingFor_sublist (item : ResponseItem Opaque) :
    removeCorrespondingFor item items <+ items := by
  unfold removeCorrespondingFor
  split
  · exact eraseP_sublist
  · split_ifs
    · exact eraseP_sublist
    · exact eraseP_sublist
  · exact eraseP_sublist
  · exact .refl _

/-- Removing the counterpart of the first item pairs the rest. -/
theorem paired_removeCorrespondingFor (h : Paired (removed :: items)) :
    Paired (removeCorrespondingFor removed.item items) := by
  unfold Paired at h
  cases hcall : removed.item.callKey with
  | some key =>
    simp only [filterMap_cons, hcall, outputKey_eq_none_of_callKey hcall] at h
    simp only [removeCorrespondingFor, hcall, removeFirstMatching]
    refine h.eraseP (fun e he => ?_) ?_
    · have he := eq_of_beq he
      exact ⟨he, callKey_eq_none_of_outputKey he⟩
    · obtain ⟨e, he, hkey⟩ := mem_filterMap.1 ((h.same key).1 (.head _))
      exact ⟨e, he, beq_iff_eq.2 hkey⟩
  | none =>
    cases houtput : removed.item.outputKey with
    | none =>
      simp only [filterMap_cons, hcall, houtput] at h
      simp only [removeCorrespondingFor, hcall, houtput]
      exact h
    | some key =>
      simp only [filterMap_cons, hcall, houtput] at h
      -- the call with the key is the only one, whichever search finds it
      have herase : ∀ p : ResponseItem Opaque → Bool,
          (∀ item, p item = true → item.callKey = some key) →
          (∃ e ∈ items, p e.item = true) → Paired (removeFirstMatching p items) := by
        intro p hp hmem
        refine (h.symm.eraseP (fun e he => ⟨hp _ he, ?_⟩) hmem).symm
        exact outputKey_eq_none_of_callKey (hp _ he)
      have hany : ∃ e ∈ items, (e.item.callKey == some key) = true := by
        obtain ⟨e, he, hkey⟩ := mem_filterMap.1 ((h.same key).2 (.head _))
        exact ⟨e, he, beq_iff_eq.2 hkey⟩
      have hlast := herase (·.callKey == some key) (fun item => eq_of_beq) hany
      obtain ⟨kind, callId⟩ := key
      cases kind with
      | function =>
        simp only [removeCorrespondingFor, hcall, houtput]
        split_ifs with hfunction
        · refine herase _ (fun item hitem => ?_) (any_eq_true.1 hfunction)
          cases item <;> first | cases hitem | rw [callKey, eq_of_beq hitem]
        · exact hlast
      | toolSearch | customTool => simpa only [removeCorrespondingFor, hcall, houtput] using hlast

/-- **Removing from the front keeps calls and outputs paired.** -/
theorem removeFirstItem_paired (m : ContextManager Opaque Ctx World) (h : Paired m.items) (n : ℕ) :
    (removeFirstItem^[n] m).items <+ m.items ∧ Paired (removeFirstItem^[n] m).items := by
  induction n with
  | zero => exact ⟨.refl _, h⟩
  | succ n ih =>
    rw [Function.iterate_succ_apply']
    generalize removeFirstItem^[n] m = current at ih
    unfold removeFirstItem
    split
    · exact ih
    · next removed items hitems =>
      rw [hitems] at ih
      exact ⟨(removeCorrespondingFor_sublist _).trans ((sublist_cons_self ..).trans ih.1),
        paired_removeCorrespondingFor ih.2⟩

/-- Two calls whose outputs come first and last: with the output in front goes its call. -/
theorem removeFirstItem_paired_two :
    let m := { (new : ContextManager Unit Unit Unit) with
      items := [callOutput ['c'], call ['d'], call ['c'], callOutput ['d']] }
    (removeFirstItem^[1] m).items = [call ['d'], callOutput ['d']] ∧
      (removeFirstItem^[1] m).items <+ m.items ∧ Paired (removeFirstItem^[1] m).items := by
  intro m
  have hpaired : Paired m.items := ⟨by decide, by decide, fun key => by
    simp [m, callOutput, call, Envelope.new, callKey, outputKey, or_comm]⟩
  exact ⟨rfl, removeFirstItem_paired m hpaired 1⟩

end ContextManager

end History
