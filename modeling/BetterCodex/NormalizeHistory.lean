/-
# Normalising a history for the prompt

`normalize_history` puts an "aborted" output behind every call that has none, drops
the outputs that answer no call, and replaces media that the model cannot read.
-/
import BetterCodex.ResponseItems

namespace History

open RustStr ResponseItem List

variable {Opaque : Type}

/-! ## Missing outputs -/

/-- `error_or_panic` for the complaints of one loop, in their order: a debug build
panics at the first one, a release build only logs. -/
def errorOrPanic (debug : Bool) : List Text → Except Text Unit
  | [] => .ok ()
  | complaint :: _ => if debug then .error complaint else .ok ()

section
-- `ResponseItemId::with_suffix` of a kind and the UUID made from a name
variable (idWithSuffix : Text → Text → Text)

def syntheticOutputId (kind : Text) (itemId : Option Text) : Option Text :=
  (itemId.filter (· ≠ [])).map fun sourceId => idWithSuffix kind (kind ++ ':' :: sourceId)

/-- The output that stands in for the missing one of a call. -/
def synthesizedOutput : ResponseItem Opaque → Option (ResponseItem Opaque)
  | .functionCall id callId _ _ | .localShellCall id (some callId) _ _ =>
    some (.functionCallOutput (syntheticOutputId idWithSuffix "fco".toList id) (some callId) none none
      (.fromText "aborted".toList) none)
  | .toolSearchCall id (some callId) _ _ =>
    some (.toolSearchOutput (syntheticOutputId idWithSuffix "tso".toList id) (some callId)
      "completed".toList "client".toList [] none)
  | .customToolCall id callId _ _ =>
    some (.customToolCallOutput (syntheticOutputId idWithSuffix "ctco".toList id) callId none
      (.fromText "aborted".toList) none)
  | _ => none

/-- The call has no output among these. -/
def lacksOutput (outputs : List (CallKind × Text)) (item : ResponseItem Opaque) : Bool :=
  item.callKey.any (· ∉ outputs)

/-- The output to insert behind an item. -/
def missingOutput (outputs : List (CallKind × Text)) (envelope : Envelope Opaque) :
    Option (Envelope Opaque) :=
  if lacksOutput outputs envelope.item then
    (synthesizedOutput idWithSuffix envelope.item).map Envelope.new
  else none

/-- What `error_or_panic` is told about a missing output: calls that were inherited
may still be running in the parent, and the other kinds are only logged. -/
def missingComplaint (outputs : List (CallKind × Text)) (envelope : Envelope Opaque) :
    Option Text :=
  if lacksOutput outputs envelope.item && !envelope.metadata.any (·.inheritedUserMessage) then
    match envelope.item with
    | .customToolCall _ callId _ _ =>
      some ("Custom tool call output is missing for call id: ".toList ++ callId)
    | .localShellCall _ (some callId) _ _ =>
      some ("Local shell call output is missing for call id: ".toList ++ callId)
    | _ => none
  else none

/-- The missing outputs with the positions of their calls. -/
def missingOutputs (outputs : List (CallKind × Text)) :
    ℕ → List (Envelope Opaque) → List (ℕ × Envelope Opaque)
  | _, [] => []
  | idx, envelope :: rest =>
    ((missingOutput idWithSuffix outputs envelope).map (idx, ·)).toList ++
      missingOutputs outputs (idx + 1) rest

/-- Inserting outputs behind the positions of their calls, the last position first. -/
def insertOutputs (missing : List (ℕ × Envelope Opaque)) (items : List (Envelope Opaque)) :
    List (Envelope Opaque) :=
  missing.reverse.foldl (fun items m => items.insertIdx (m.1 + 1) m.2) items

def ensureCallOutputsPresent (debug : Bool) (items : List (Envelope Opaque)) :
    Except Text (List (Envelope Opaque)) := do
  let outputs := items.filterMap (·.item.outputKey)
  errorOrPanic debug (items.filterMap (missingComplaint outputs))
  return insertOutputs (missingOutputs idWithSuffix outputs 0 items) items

end

/-! ## Orphan outputs -/

/-- The output answers none of the calls. -/
def isOrphan (calls : List (CallKind × Text)) (item : ResponseItem Opaque) : Bool :=
  !item.isServerToolSearchOutput && item.outputKey.any (· ∉ calls)

/-- What `error_or_panic` is told about an orphan. -/
def orphanComplaint (calls : List (CallKind × Text)) (item : ResponseItem Opaque) : Option Text :=
  if isOrphan calls item then
    item.outputKey.map fun
      | (.function, callId) => "Orphan function call output for call id: ".toList ++ callId
      | (.customTool, callId) => "Orphan custom tool call output for call id: ".toList ++ callId
      | (.toolSearch, callId) => "Orphan tool search output for call id: ".toList ++ callId
  else none

/-- The positions of the orphans. -/
def orphanPositions (calls : List (CallKind × Text)) : ℕ → List (Envelope Opaque) → List ℕ
  | _, [] => []
  | position, envelope :: rest =>
    (if isOrphan calls envelope.item then [position] else []) ++
      orphanPositions calls (position + 1) rest

/-- Retaining the items whose position is not the next one in the list. -/
def retainPositions : ℕ → List ℕ → List (Envelope Opaque) → List (Envelope Opaque)
  | _, _, [] => []
  | position, orphans, envelope :: rest =>
    if orphans.head? = some position then retainPositions (position + 1) orphans.tail rest
    else envelope :: retainPositions (position + 1) orphans rest

def removeOrphanOutputs (debug : Bool) (items : List (Envelope Opaque)) :
    Except Text (List (Envelope Opaque)) := do
  let calls := items.filterMap (·.item.callKey)
  errorOrPanic debug (items.filterMap (orphanComplaint calls ·.item))
  let orphans := orphanPositions calls 0 items
  return if orphans.isEmpty then items else retainPositions 0 orphans items

/-! ## Unsupported media -/

inductive InputModality where
  | text
  | image
  | audio
  deriving DecidableEq, Repr

structure UnsupportedMedia where
  text : Text
  contentKind : Text
  deriving DecidableEq, Repr

def UnsupportedMedia.image : UnsupportedMedia where
  text := "image content omitted because you do not support image input".toList
  contentKind := "images.unsupported".toList

def UnsupportedMedia.audio : UnsupportedMedia where
  text := "audio content omitted because you do not support audio input".toList
  contentKind := "audio.unsupported".toList

/-- `render_fragment`, the annotated content. -/
def UnsupportedMedia.renderFragment (media : UnsupportedMedia) : AnnotatedContent Opaque where
  content := .inputText media.text
  kind := media.contentKind
  metadata := { provenance := .harness false }

/-- `render`, as content of a tool output. -/
def UnsupportedMedia.render (media : UnsupportedMedia) : OutputContentItem Opaque :=
  .inputText media.text

/-- Changing the content items of a tool output, if it has any. -/
def OutputPayload.mapContent (g : OutputContentItem Opaque → OutputContentItem Opaque)
    (output : OutputPayload Opaque) : OutputPayload Opaque :=
  match output.body with
  | .contentItems items => { output with body := .contentItems (items.map g) }
  | .text _ => output

/-- Changing the content of messages and tool outputs part by part. -/
def mapContent (f : AnnotatedContent Opaque → AnnotatedContent Opaque)
    (g : OutputContentItem Opaque → OutputContentItem Opaque) (item : ResponseItem Opaque) :
    ResponseItem Opaque :=
  match item with
  | .message .. =>
    match item.toAnnotatedContent with
    | none => item
    | some contents => item.setAnnotatedContent (contents.map f)
  | .functionCallOutput id callId name space output p =>
    .functionCallOutput id callId name space (output.mapContent g) p
  | .customToolCallOutput id callId name output p =>
    .customToolCallOutput id callId name (output.mapContent g) p
  | item => item

/-- `InputImage`. -/
def ContentItem.isImage : ContentItem Opaque → Bool
  | .inputImage _ => true
  | _ => false

/-- `InputAudio`. -/
def ContentItem.isAudio : ContentItem Opaque → Bool
  | .inputAudio _ => true
  | _ => false

/-- `InputImage` in a tool output. -/
def OutputContentItem.isImage : OutputContentItem Opaque → Bool
  | .inputImage _ => true
  | _ => false

/-- `InputAudio` in a tool output. -/
def OutputContentItem.isAudio : OutputContentItem Opaque → Bool
  | .inputAudio _ => true
  | _ => false

/-- An image part of a message becomes a notice. -/
def withoutImage (c : AnnotatedContent Opaque) : AnnotatedContent Opaque :=
  if c.content.isImage then UnsupportedMedia.image.renderFragment else c

/-- An audio part of a message becomes a notice. -/
def withoutAudio (c : AnnotatedContent Opaque) : AnnotatedContent Opaque :=
  if c.content.isAudio then UnsupportedMedia.audio.renderFragment else c

/-- An image part of a tool output becomes a notice. -/
def withoutOutputImage (c : OutputContentItem Opaque) : OutputContentItem Opaque :=
  if c.isImage then UnsupportedMedia.image.render else c

/-- An audio part of a tool output becomes a notice. -/
def withoutOutputAudio (c : OutputContentItem Opaque) : OutputContentItem Opaque :=
  if c.isAudio then UnsupportedMedia.audio.render else c

/-- A generated image loses its result. -/
def clearGeneratedImage : ResponseItem Opaque → ResponseItem Opaque
  | .imageGenerationCall id _ p rest => .imageGenerationCall id [] p rest
  | item => item

/-- The images of one item. -/
def stripImages (item : ResponseItem Opaque) : ResponseItem Opaque :=
  clearGeneratedImage (mapContent withoutImage withoutOutputImage item)

/-- The audio of one item. -/
def stripAudio (item : ResponseItem Opaque) : ResponseItem Opaque :=
  mapContent withoutAudio withoutOutputAudio item

/-- Changing the item in its envelope. -/
def Envelope.mapItem (f : ResponseItem Opaque → ResponseItem Opaque) (envelope : Envelope Opaque) :
    Envelope Opaque :=
  { envelope with item := f envelope.item }

def stripImagesWhenUnsupported (modalities : List InputModality) (items : List (Envelope Opaque)) :
    List (Envelope Opaque) :=
  if .image ∈ modalities then items else items.map (·.mapItem stripImages)

def stripAudioWhenUnsupported (modalities : List InputModality) (items : List (Envelope Opaque)) :
    List (Envelope Opaque) :=
  if .audio ∈ modalities then items else items.map (·.mapItem stripAudio)

/-! ## The whole normalisation -/

/-- The number of items up to the last one that the model generated. -/
def lastModelOutput (items : List (Envelope Opaque)) : Option ℕ :=
  (items.reverse.findIdx? (isModelGeneratedItem ·.item)).map (items.length - ·)

/-- `normalize_history`: the items and `last_model_output_item_count` afterwards. -/
def normalizeHistory (idWithSuffix : Text → Text → Text) (debug : Bool)
    (modalities : List InputModality) (items : List (Envelope Opaque)) :
    Except Text (List (Envelope Opaque) × Option ℕ) := do
  let items ← ensureCallOutputsPresent idWithSuffix debug items
  let items ← removeOrphanOutputs debug items
  let items := stripImagesWhenUnsupported modalities items
  let items := stripAudioWhenUnsupported modalities items
  return (items, lastModelOutput items)

/-! ## One pass over the items -/

section
variable {idWithSuffix : Text → Text → Text} {outputs calls : List (CallKind × Text)}
variable (pre : List (Envelope Opaque))

theorem insertIdx_length_append (rest : List (Envelope Opaque)) (e : Envelope Opaque) :
    (pre ++ rest).insertIdx pre.length e = pre ++ e :: rest := by
  induction pre with
  | nil => rfl
  | cons a pre ih => simp [ih]

variable (items : List (Envelope Opaque))

/-- Inserting from the back puts every output right behind its call. -/
theorem insertOutputs_append :
    insertOutputs (missingOutputs idWithSuffix outputs pre.length items) (pre ++ items) =
      pre ++ items.flatMap fun e => e :: (missingOutput idWithSuffix outputs e).toList := by
  induction items generalizing pre with
  | nil => rfl
  | cons e items ih =>
    have hrest := ih (pre ++ [e])
    rw [append_assoc, singleton_append, length_append, length_singleton] at hrest
    cases hmissing : missingOutput idWithSuffix outputs e with
    | none => simpa [missingOutputs, hmissing] using hrest
    | some output =>
      have hsplit : insertOutputs (missingOutputs idWithSuffix outputs pre.length (e :: items))
            (pre ++ e :: items) =
          (insertOutputs (missingOutputs idWithSuffix outputs (pre.length + 1) items)
            (pre ++ e :: items)).insertIdx (pre.length + 1) output := by
        simp [insertOutputs, missingOutputs, hmissing]
      have hinsert := insertIdx_length_append (pre ++ [e])
        (items.flatMap fun e => e :: (missingOutput idWithSuffix outputs e).toList) output
      rw [length_append, length_singleton] at hinsert
      rw [hsplit, hrest, hinsert]
      simp [hmissing]

/-- Inserting from the back is one pass over the items. -/
theorem insertOutputs_eq :
    insertOutputs (missingOutputs idWithSuffix outputs 0 items) items =
      items.flatMap fun e => e :: (missingOutput idWithSuffix outputs e).toList :=
  insertOutputs_append [] items

theorem le_of_mem_orphanPositions {position p : ℕ} {items : List (Envelope Opaque)}
    (h : p ∈ orphanPositions calls position items) : position ≤ p := by
  induction items generalizing position with
  | nil => cases h
  | cons e items ih =>
    rw [orphanPositions, mem_append] at h
    rcases h with h | h
    · split_ifs at h
      · exact (mem_singleton.1 h).ge
      · cases h
    · have := ih h
      omega

/-- Retaining by positions is a filter. -/
theorem retainPositions_eq (position : ℕ) (items : List (Envelope Opaque)) :
    retainPositions position (orphanPositions calls position items) items =
      items.filter fun e => !isOrphan calls e.item := by
  induction items generalizing position with
  | nil => rfl
  | cons e items ih =>
    rw [orphanPositions, retainPositions]
    by_cases horphan : isOrphan calls e.item = true
    · simp [horphan, ih]
    · -- the next orphan stands at a later position
      have hhead : (orphanPositions calls (position + 1) items).head? ≠ some position := by
        intro h
        have := le_of_mem_orphanPositions (mem_of_mem_head? h)
        omega
      simp [horphan, hhead, ih]

/-! ## Stripping -/

variable (f : AnnotatedContent Opaque → AnnotatedContent Opaque) (g : OutputContentItem Opaque → OutputContentItem Opaque)

theorem keys_mapContent (item : ResponseItem Opaque) :
    (mapContent f g item).callKey = item.callKey ∧
      (mapContent f g item).outputKey = item.outputKey ∧
      (mapContent f g item).isServerToolSearchOutput = item.isServerToolSearchOutput := by
  cases item with
  | functionCallOutput id callId => cases callId <;> exact ⟨rfl, rfl, rfl⟩
  | _ => exact ⟨rfl, rfl, rfl⟩

variable {item : ResponseItem Opaque}

theorem mapContent_of_annotated {f : AnnotatedContent Opaque → AnnotatedContent Opaque}
    {g : OutputContentItem Opaque → OutputContentItem Opaque}
    {contents : List (AnnotatedContent Opaque)} (h : item.toAnnotatedContent = some contents) :
    mapContent f g item = item.setAnnotatedContent (contents.map f) := by
  cases item with
  | message => simp only [mapContent, h]
  | _ => cases h

theorem mapContent_mapContent (f' : AnnotatedContent Opaque → AnnotatedContent Opaque)
    (g g' : OutputContentItem Opaque → OutputContentItem Opaque) (item : ResponseItem Opaque) :
    mapContent f g (mapContent f' g' item) = mapContent (f ∘ f') (g ∘ g') item := by
  have houtput : ∀ output : OutputPayload Opaque,
      (output.mapContent g').mapContent g = output.mapContent (g ∘ g') := by
    rintro ⟨body, success⟩
    cases body <;> simp [OutputPayload.mapContent]
  cases item with
  | message id role content passthrough rest =>
    obtain ⟨contents, hcontents⟩ : ∃ contents,
        (ResponseItem.message id role content passthrough rest).toAnnotatedContent =
          some contents := ⟨_, rfl⟩
    rw [mapContent_of_annotated hcontents, mapContent_of_annotated hcontents,
      mapContent_of_annotated (toAnnotatedContent_set _), setAnnotatedContent_set, map_map]
  | functionCallOutput id callId name space output p => simp only [mapContent, houtput]
  | customToolCallOutput id callId name output p => simp only [mapContent, houtput]
  | _ => rfl

/-- The media of one item. -/
def stripItem (modalities : List InputModality) (item : ResponseItem Opaque) :
    ResponseItem Opaque :=
  let item := if .image ∈ modalities then item else stripImages item
  if .audio ∈ modalities then item else stripAudio item

variable (modalities : List InputModality)

/-- The two passes over the media are one map. -/
theorem strip_eq_map (items : List (Envelope Opaque)) :
    stripAudioWhenUnsupported modalities (stripImagesWhenUnsupported modalities items) =
      items.map (·.mapItem (stripItem modalities)) := by
  simp only [stripAudioWhenUnsupported, stripImagesWhenUnsupported]
  have hid : items = items.map fun e => e.mapItem id := (map_id items).symm
  split_ifs with haudio himage himage
  · have hstrip : (stripItem modalities : ResponseItem Opaque → ResponseItem Opaque) = id := by
      funext item
      simp [stripItem, haudio, himage]
    rw [hstrip]
    exact hid
  · refine map_congr_left fun e _ => ?_
    simp [stripItem, haudio, himage, Envelope.mapItem]
  · refine map_congr_left fun e _ => ?_
    simp [stripItem, haudio, himage, Envelope.mapItem]
  · rw [map_map]
    refine map_congr_left fun e _ => ?_
    simp [stripItem, haudio, himage, Envelope.mapItem]

/-- Replacing media leaves calls and outputs what they are. -/
theorem keys_stripItem (item : ResponseItem Opaque) :
    (stripItem modalities item).callKey = item.callKey ∧
      (stripItem modalities item).outputKey = item.outputKey ∧
      (stripItem modalities item).isServerToolSearchOutput = item.isServerToolSearchOutput := by
  have hclear : ∀ item : ResponseItem Opaque, (clearGeneratedImage item).callKey = item.callKey ∧
      (clearGeneratedImage item).outputKey = item.outputKey ∧
      (clearGeneratedImage item).isServerToolSearchOutput = item.isServerToolSearchOutput := by
    intro item
    cases item <;> exact ⟨rfl, rfl, rfl⟩
  have himages : ∀ item : ResponseItem Opaque, (stripImages item).callKey = item.callKey ∧
      (stripImages item).outputKey = item.outputKey ∧
      (stripImages item).isServerToolSearchOutput = item.isServerToolSearchOutput := by
    intro item
    simp only [stripImages, hclear]
    exact keys_mapContent _ _ item
  have haudio : ∀ item : ResponseItem Opaque, (stripAudio item).callKey = item.callKey ∧
      (stripAudio item).outputKey = item.outputKey ∧
      (stripAudio item).isServerToolSearchOutput = item.isServerToolSearchOutput :=
    fun item => keys_mapContent _ _ item
  simp only [stripItem]
  split_ifs <;> simp [himages, haudio]

theorem without_parts (c : AnnotatedContent Opaque) :
    withoutImage (withoutImage c) = withoutImage c ∧
      withoutAudio (withoutAudio c) = withoutAudio c ∧
      withoutAudio (withoutImage (withoutAudio (withoutImage c))) =
        withoutAudio (withoutImage c) := by
  obtain ⟨content, kind, metadata⟩ := c
  cases content <;> exact ⟨rfl, rfl, rfl⟩

theorem without_outputParts (c : OutputContentItem Opaque) :
    withoutOutputImage (withoutOutputImage c) = withoutOutputImage c ∧
      withoutOutputAudio (withoutOutputAudio c) = withoutOutputAudio c ∧
      withoutOutputAudio (withoutOutputImage (withoutOutputAudio (withoutOutputImage c))) =
        withoutOutputAudio (withoutOutputImage c) := by
  cases c <;> exact ⟨rfl, rfl, rfl⟩

theorem mapContent_clearGeneratedImage (item : ResponseItem Opaque) :
    mapContent f g (clearGeneratedImage item) = clearGeneratedImage (mapContent f g item) := by
  cases item <;> rfl

theorem clearGeneratedImage_idem (item : ResponseItem Opaque) :
    clearGeneratedImage (clearGeneratedImage item) = clearGeneratedImage item := by
  cases item <;> rfl

/-- What was replaced is not replaced again. -/
theorem stripItem_stripItem (item : ResponseItem Opaque) :
    stripItem modalities (stripItem modalities item) = stripItem modalities item := by
  have himage : (withoutImage ∘ withoutImage : AnnotatedContent Opaque → _) = withoutImage ∧
      (withoutOutputImage ∘ withoutOutputImage : OutputContentItem Opaque → _) =
        withoutOutputImage :=
    ⟨funext fun c => (without_parts c).1, funext fun c => (without_outputParts c).1⟩
  have haudio : (withoutAudio ∘ withoutAudio : AnnotatedContent Opaque → _) = withoutAudio ∧
      (withoutOutputAudio ∘ withoutOutputAudio : OutputContentItem Opaque → _) =
        withoutOutputAudio :=
    ⟨funext fun c => (without_parts c).2.1, funext fun c => (without_outputParts c).2.1⟩
  have hboth : (withoutAudio ∘ withoutImage ∘ withoutAudio ∘ withoutImage :
        AnnotatedContent Opaque → _) = withoutAudio ∘ withoutImage ∧
      (withoutOutputAudio ∘ withoutOutputImage ∘ withoutOutputAudio ∘ withoutOutputImage :
        OutputContentItem Opaque → _) = withoutOutputAudio ∘ withoutOutputImage :=
    ⟨funext fun c => (without_parts c).2.2, funext fun c => (without_outputParts c).2.2⟩
  simp only [stripItem, stripImages, stripAudio]
  split_ifs
  · rfl
  · simp only [mapContent_clearGeneratedImage, clearGeneratedImage_idem, mapContent_mapContent,
      himage]
  · simp only [mapContent_mapContent, haudio]
  · simp only [mapContent_clearGeneratedImage, clearGeneratedImage_idem, mapContent_mapContent,
      hboth]

/-! ## The normalised history -/

/-- An output that is put in answers its call. -/
theorem synthesizedOutput_some {output : ResponseItem Opaque}
    (h : synthesizedOutput idWithSuffix item = some output) :
    output.outputKey = item.callKey ∧ output.callKey = none ∧
      output.isServerToolSearchOutput = false ∧
      ∀ modalities, stripItem modalities output = output := by
  have hstrip : ∀ (modalities : List InputModality) (item : ResponseItem Opaque),
      stripImages item = item → stripAudio item = item → stripItem modalities item = item := by
    intro modalities item himages haudio
    simp only [stripItem]
    split_ifs <;> simp [himages, haudio]
  unfold synthesizedOutput at h
  split at h
  all_goals first
    | (obtain rfl := Option.some.inj h
       exact ⟨rfl, rfl, rfl, fun modalities => hstrip modalities _ rfl rfl⟩)
    | cases h

theorem synthesizedOutput_of_callKey {key : CallKind × Text} (h : item.callKey = some key) :
    ∃ output, synthesizedOutput idWithSuffix item = some output := by
  cases item with
  | functionCall | customToolCall => exact ⟨_, rfl⟩
  | localShellCall id callId | toolSearchCall id callId =>
    cases callId with
    | none => cases h
    | some callId => exact ⟨_, rfl⟩
  | _ => cases h

/-- The output inserted behind an item answers it, and nothing did so before. -/
theorem missingOutput_some {e o : Envelope Opaque}
    (h : missingOutput idWithSuffix outputs e = some o) :
    ∃ key, e.item.callKey = some key ∧ key ∉ outputs ∧ o.item.outputKey = some key ∧
      o.item.callKey = none ∧ o.item.isServerToolSearchOutput = false ∧
      ∀ modalities, o.mapItem (stripItem modalities) = o := by
  rw [missingOutput] at h
  split_ifs at h with hlacks
  obtain ⟨key, hkey, hmem⟩ := Option.any_eq_true _ _ |>.1 hlacks
  obtain ⟨output, houtput, rfl⟩ := Option.map_eq_some_iff.1 h
  obtain ⟨hout, hcall, hserver, hstrip⟩ := synthesizedOutput_some houtput
  refine ⟨key, hkey, by simpa using hmem, hout.trans hkey, hcall, hserver, fun modalities => ?_⟩
  rw [Envelope.mapItem]
  simp only [Envelope.new, hstrip modalities]

theorem exists_missingOutput {e : Envelope Opaque} {key : CallKind × Text}
    (hkey : e.item.callKey = some key) (hmem : key ∉ outputs) :
    ∃ o, missingOutput idWithSuffix outputs e = some o := by
  obtain ⟨output, houtput⟩ : ∃ output, synthesizedOutput idWithSuffix e.item = some output :=
    synthesizedOutput_of_callKey hkey
  have hlacks : lacksOutput outputs e.item = true := by simp [lacksOutput, hkey, hmem]
  exact ⟨_, by rw [missingOutput, if_pos hlacks, houtput]; rfl⟩

end

section
variable (idWithSuffix : Text → Text → Text) (modalities : List InputModality)

/-- An item as it leaves the normalisation, with the output synthesised for it. -/
def normalizedItem (outputs : List (CallKind × Text)) (e : Envelope Opaque) :
    List (Envelope Opaque) :=
  e.mapItem (stripItem modalities) :: (missingOutput idWithSuffix outputs e).toList

variable (items : List (Envelope Opaque))

/-- The items that answer a call or are no outputs. -/
def surviving : List (Envelope Opaque) :=
  items.filter fun e => !isOrphan (items.filterMap (·.item.callKey)) e.item

/-- The normalised history. -/
def normalizedItems : List (Envelope Opaque) :=
  (surviving items).flatMap
    (normalizedItem idWithSuffix modalities (items.filterMap (·.item.outputKey)))

variable {idWithSuffix modalities} (outputs : List (CallKind × Text))

/-- Putting outputs in adds no calls. -/
theorem callKeys_inserted (items : List (Envelope Opaque)) :
    (items.flatMap fun e => e :: (missingOutput idWithSuffix outputs e).toList).filterMap
        (·.item.callKey) = items.filterMap (·.item.callKey) := by
  induction items with
  | nil => rfl
  | cons e items ih =>
    have hnone : ((missingOutput idWithSuffix outputs e).toList).filterMap (·.item.callKey) = [] := by
      rw [filterMap_eq_nil_iff]
      intro o ho
      obtain ⟨key, -, -, -, hcall, -⟩ := missingOutput_some (Option.mem_toList.1 ho)
      exact hcall
    rw [flatMap_cons, filterMap_append, ih, ← singleton_append,
      filterMap_append, hnone, append_nil, ← filterMap_append, singleton_append]

/-- Orphans are dropped from between the calls and the outputs inserted for them. -/
theorem filter_inserted (calls : List (CallKind × Text)) (items : List (Envelope Opaque))
    (hcalls : ∀ e ∈ items, ∀ key ∈ e.item.callKey, key ∈ calls) :
    (items.flatMap fun e => e :: (missingOutput idWithSuffix outputs e).toList).filter
        (fun e => !isOrphan calls e.item) =
      (items.filter fun e => !isOrphan calls e.item).flatMap
        fun e => e :: (missingOutput idWithSuffix outputs e).toList := by
  induction items with
  | nil => rfl
  | cons e items ih =>
    obtain ⟨hcall, hcalls⟩ := forall_mem_cons.1 hcalls
    have hkept : (missingOutput idWithSuffix outputs e).toList.filter
        (fun e => !isOrphan calls e.item) = (missingOutput idWithSuffix outputs e).toList := by
      rw [filter_eq_self]
      intro o ho
      obtain ⟨key, hkey, -, hout, -, hserver, -⟩ := missingOutput_some (Option.mem_toList.1 ho)
      simp [isOrphan, hout, hserver, hcall key hkey]
    rw [flatMap_cons, filter_append, ih hcalls]
    by_cases horphan : isOrphan calls e.item = true
    · -- an orphan is an output, so nothing was inserted behind it
      have hmissing : missingOutput idWithSuffix outputs e = none := by
        by_contra hne
        obtain ⟨o, ho⟩ := Option.ne_none_iff_exists'.1 hne
        obtain ⟨key, hkey, -⟩ := missingOutput_some ho
        simp [isOrphan, outputKey_eq_none_of_callKey hkey] at horphan
      simp [hmissing, horphan]
    · simp [horphan, hkept]

/-- Dropping orphans by position keeps the items that survive. -/
theorem removeOrphans_eq :
    (if (orphanPositions (items.filterMap (·.item.callKey)) 0 items).isEmpty then items
      else retainPositions 0 (orphanPositions (items.filterMap (·.item.callKey)) 0 items) items) =
      surviving items := by
  have hretain : retainPositions 0 (orphanPositions (items.filterMap (·.item.callKey)) 0 items)
      items = surviving items := retainPositions_eq 0 items
  have hnil : ∀ (position : ℕ) (items : List (Envelope Opaque)),
      retainPositions position [] items = items := by
    intro position items
    induction items generalizing position with
    | nil => rfl
    | cons e items ih => simp [retainPositions, ih]
  split_ifs with hempty
  · rw [isEmpty_iff.1 hempty, hnil] at hretain
    exact hretain
  · exact hretain

/-- The three passes together. -/
theorem strip_surviving_inserted :
    (surviving (items.flatMap fun e =>
        e :: (missingOutput idWithSuffix (items.filterMap (·.item.outputKey)) e).toList)).map
      (·.mapItem (stripItem modalities)) = normalizedItems idWithSuffix modalities items := by
  rw [surviving, callKeys_inserted, filter_inserted, map_flatMap, normalizedItems, surviving]
  · refine flatMap_congr fun e _ => ?_
    rw [map_cons, normalizedItem]
    congr 1
    refine (map_congr_left fun o ho => ?_).trans (map_id _)
    obtain ⟨key, -, -, -, -, -, hstrip⟩ := missingOutput_some (Option.mem_toList.1 ho)
    exact hstrip modalities
  · intro e he key hkey
    exact mem_filterMap.2 ⟨e, he, hkey⟩

variable (debug : Bool)

/-- `normalize_history` complains, in a debug build, or returns the normalised items. -/
theorem normalizeHistory_eq (items : List (Envelope Opaque)) :
    normalizeHistory idWithSuffix debug modalities items = do
      errorOrPanic debug (items.filterMap
        (missingComplaint (items.filterMap (·.item.outputKey))))
      errorOrPanic debug ((items.flatMap fun e =>
          e :: (missingOutput idWithSuffix (items.filterMap (·.item.outputKey)) e).toList).filterMap
        (orphanComplaint (items.filterMap (·.item.callKey)) ·.item))
      return (normalizedItems idWithSuffix modalities items,
        lastModelOutput (normalizedItems idWithSuffix modalities items)) := by
  simp only [normalizeHistory, ensureCallOutputsPresent, removeOrphanOutputs, bind_assoc, pure_bind,
    insertOutputs_eq, removeOrphans_eq, strip_eq_map, callKeys_inserted, strip_surviving_inserted]

variable {items : List (Envelope Opaque)}

/-- What `normalize_history` returns. -/
theorem normalizeHistory_ok {debug : Bool} {r : List (Envelope Opaque) × Option ℕ}
    (h : normalizeHistory idWithSuffix debug modalities items = .ok r) :
    r = (normalizedItems idWithSuffix modalities items,
      lastModelOutput (normalizedItems idWithSuffix modalities items)) := by
  rw [normalizeHistory_eq] at h
  -- neither loop has complained
  generalize errorOrPanic debug (items.filterMap _) = missing at h
  generalize errorOrPanic debug (List.filterMap _ _) = orphans at h
  cases missing with
  | error => cases h
  | ok =>
    cases orphans with
    | error => cases h
    | ok => exact (Except.ok.inj h).symm

/-! ## Calls and outputs are paired -/

variable {e : Envelope Opaque}

theorem mem_normalizedItems :
    e ∈ normalizedItems idWithSuffix modalities items ↔ ∃ e' ∈ surviving items,
      e = e'.mapItem (stripItem modalities) ∨
        missingOutput idWithSuffix (items.filterMap (·.item.outputKey)) e' = some e := by
  simp [normalizedItems, normalizedItem, mem_flatMap]

variable {key : CallKind × Text}

theorem mem_surviving_of_call (he : e ∈ items) (hkey : e.item.callKey = some key) :
    e ∈ surviving items := by
  refine mem_filter.2 ⟨he, ?_⟩
  simp [isOrphan, outputKey_eq_none_of_callKey hkey]

/-- Every call of the normalised history is a call of the history. -/
theorem call_of_normalizedItems (he : e ∈ normalizedItems idWithSuffix modalities items)
    (hkey : e.item.callKey = some key) : ∃ e' ∈ surviving items, e'.item.callKey = some key := by
  obtain ⟨e', he', rfl | hmissing⟩ := mem_normalizedItems.1 he
  · exact ⟨e', he', (keys_stripItem modalities e'.item).1.symm.trans hkey⟩
  · obtain ⟨_, -, -, -, hcall, -⟩ := missingOutput_some hmissing
    rw [hcall] at hkey
    cases hkey

/-- After normalising, every call has its output. -/
theorem exists_output_normalizedItems (h : ∃ e ∈ surviving items, e.item.callKey = some key) :
    ∃ o ∈ normalizedItems idWithSuffix modalities items, o.item.outputKey = some key := by
  obtain ⟨e, he, hkey⟩ := h
  by_cases hmem : key ∈ items.filterMap (·.item.outputKey)
  · -- an output is there already, and it is no orphan
    obtain ⟨o, ho, hout⟩ := mem_filterMap.1 hmem
    have hcall : key ∈ items.filterMap (·.item.callKey) :=
      mem_filterMap.2 ⟨e, (mem_filter.1 he).1, hkey⟩
    have hsurvives : o ∈ surviving items := by
      refine mem_filter.2 ⟨ho, ?_⟩
      simp only [isOrphan, hout, Option.any_some, hcall]
      simp
    exact ⟨_, mem_normalizedItems.2 ⟨o, hsurvives, Or.inl rfl⟩,
      (keys_stripItem modalities o.item).2.1.trans hout⟩
  · obtain ⟨o, ho⟩ := exists_missingOutput (e := e) hkey hmem
    obtain ⟨key', hkey', -, hout, -⟩ := missingOutput_some ho
    rw [hkey] at hkey'
    exact ⟨o, mem_normalizedItems.2 ⟨e, he, Or.inr ho⟩, hout.trans hkey'.symm⟩

/-- After normalising, every output has its call. -/
theorem exists_call_normalizedItems {o : Envelope Opaque}
    (ho : o ∈ normalizedItems idWithSuffix modalities items) (hout : o.item.outputKey = some key)
    (hserver : o.item.isServerToolSearchOutput = false) :
    ∃ e ∈ normalizedItems idWithSuffix modalities items, e.item.callKey = some key := by
  have hcall : key ∈ items.filterMap (·.item.callKey) := by
    obtain ⟨e', he', rfl | hmissing⟩ := mem_normalizedItems.1 ho
    · have hkeys := keys_stripItem modalities e'.item
      have hkept := (mem_filter.1 he').2
      rw [isOrphan, ← hkeys.2.2, ← hkeys.2.1] at hkept
      simp only [Envelope.mapItem] at hout hserver
      simpa [hout, hserver] using hkept
    · obtain ⟨key', hkey', -, hout', -⟩ := missingOutput_some hmissing
      rw [hout] at hout'
      rw [Option.some.inj hout']
      exact mem_filterMap.2 ⟨e', (mem_filter.1 he').1, hkey'⟩
  obtain ⟨e, he, hkey⟩ := mem_filterMap.1 hcall
  exact ⟨_, mem_normalizedItems.2 ⟨e, mem_surviving_of_call he hkey, Or.inl rfl⟩,
    (keys_stripItem modalities e.item).1.trans hkey⟩

theorem stripped_normalizedItems (he : e ∈ normalizedItems idWithSuffix modalities items) :
    e.mapItem (stripItem modalities) = e := by
  obtain ⟨e', -, rfl | hmissing⟩ := mem_normalizedItems.1 he
  · simp only [Envelope.mapItem, stripItem_stripItem]
  · obtain ⟨_, -, -, -, -, -, hstrip⟩ := missingOutput_some hmissing
    exact hstrip modalities

/-- A history whose calls and outputs are paired and whose items are stripped is left
alone, by a debug build too. -/
theorem normalizeHistory_of_paired (hcalls : ∀ e ∈ items, ∀ key, e.item.callKey = some key →
      ∃ o ∈ items, o.item.outputKey = some key)
    (houtputs : ∀ o ∈ items, ∀ key, o.item.outputKey = some key →
      o.item.isServerToolSearchOutput = false → ∃ e ∈ items, e.item.callKey = some key)
    (hstrip : ∀ e ∈ items, e.mapItem (stripItem modalities) = e) :
    normalizeHistory idWithSuffix debug modalities items = .ok (items, lastModelOutput items) := by
  have hlacks : ∀ e ∈ items, lacksOutput (items.filterMap (·.item.outputKey)) e.item = false := by
    intro e he
    rw [lacksOutput, Option.any_eq_false]
    intro key hkey
    obtain ⟨o, ho, hout⟩ := hcalls e he key hkey
    simpa using ⟨o, ho, hout⟩
  have horphan : ∀ e ∈ items, isOrphan (items.filterMap (·.item.callKey)) e.item = false := by
    intro e he
    rw [isOrphan, Bool.and_eq_false_iff]
    by_cases hserver : e.item.isServerToolSearchOutput = true
    · exact Or.inl (by simp [hserver])
    · refine Or.inr (Option.any_eq_false _ _ |>.2 fun key hkey => ?_)
      obtain ⟨c, hc, hcall⟩ := houtputs e he key hkey (by simpa using hserver)
      simpa using ⟨c, hc, hcall⟩
  have hmissing : ∀ e ∈ items,
      missingOutput idWithSuffix (items.filterMap (·.item.outputKey)) e = none :=
    fun e he => by simp [missingOutput, hlacks e he]
  have hinserted : (items.flatMap fun e =>
      e :: (missingOutput idWithSuffix (items.filterMap (·.item.outputKey)) e).toList) = items := by
    refine (flatMap_congr fun e he => ?_).trans (flatMap_singleton' items)
    rw [hmissing e he]
    rfl
  have hsurviving : surviving items = items :=
    filter_eq_self.2 fun e he => by simp [horphan e he]
  have hnormal : normalizedItems idWithSuffix modalities items = items := by
    rw [normalizedItems, hsurviving]
    refine (flatMap_congr fun e he => ?_).trans (flatMap_singleton' items)
    rw [normalizedItem, hmissing e he, hstrip e he]
    rfl
  have hquiet : items.filterMap (missingComplaint (items.filterMap (·.item.outputKey))) = [] := by
    rw [filterMap_eq_nil_iff]
    intro e he
    simp [missingComplaint, hlacks e he]
  have hquiet' :
      items.filterMap (orphanComplaint (items.filterMap (·.item.callKey)) ·.item) = [] := by
    rw [filterMap_eq_nil_iff]
    intro e he
    simp [orphanComplaint, horphan e he]
  rw [normalizeHistory_eq, hinserted, hquiet, hquiet', hnormal]
  rfl

end

/-- **Normalisation.**  A release build always returns, and a debug build returns the
same or panics.  In the result every call that carries a call id has an output of its
kind with that id, and every output has its call unless the server made it.  The
result is the surviving items in their order, with the output that a call lacks right
behind it, and normalising it once more, in either build, changes nothing. -/
theorem normalize_history_paired (idWithSuffix : Text → Text → Text)
    (modalities : List InputModality) (items : List (Envelope Opaque)) :
    ∃ result, normalizeHistory idWithSuffix false modalities items =
        .ok (result, lastModelOutput result) ∧
      (∀ r, normalizeHistory idWithSuffix true modalities items = .ok r →
        r = (result, lastModelOutput result)) ∧
      (∀ e ∈ result, ∀ key, e.item.callKey = some key →
        ∃ o ∈ result, o.item.outputKey = some key) ∧
      (∀ o ∈ result, ∀ key, o.item.outputKey = some key →
        o.item.isServerToolSearchOutput = false → ∃ e ∈ result, e.item.callKey = some key) ∧
      (surviving items).Sublist items ∧
      (∀ e ∈ surviving items, ∀ o,
        missingOutput idWithSuffix (items.filterMap (·.item.outputKey)) e = some o →
        ∃ key, e.item.callKey = some key ∧ o.item.outputKey = some key ∧
          ∀ o' ∈ items, o'.item.outputKey ≠ some key) ∧
      result = (surviving items).flatMap (fun e => e.mapItem (stripItem modalities) ::
        (missingOutput idWithSuffix (items.filterMap (·.item.outputKey)) e).toList) ∧
      ∀ debug, normalizeHistory idWithSuffix debug modalities result =
        .ok (result, lastModelOutput result) := by
  refine ⟨normalizedItems idWithSuffix modalities items, ?_, ?_, ?_, ?_, filter_sublist, ?_, rfl, ?_⟩
  · rw [normalizeHistory_eq]
    have hrelease : ∀ complaints, errorOrPanic false complaints = .ok () := by
      intro complaints
      cases complaints <;> rfl
    rw [hrelease, hrelease]
    rfl
  · exact fun r hr => normalizeHistory_ok hr
  · intro e he key hkey
    exact exists_output_normalizedItems (call_of_normalizedItems he hkey)
  · intro o ho key hout hserver
    exact exists_call_normalizedItems ho hout hserver
  · intro e _ o ho
    obtain ⟨key, hkey, hmem, hout, -⟩ := missingOutput_some ho
    refine ⟨key, hkey, hout, fun o' ho' hout' => hmem ?_⟩
    exact mem_filterMap.2 ⟨o', ho', hout'⟩
  · intro debug
    refine normalizeHistory_of_paired debug ?_ ?_ ?_
    · intro e he key hkey
      exact exists_output_normalizedItems (call_of_normalizedItems he hkey)
    · intro o ho key hout hserver
      exact exists_call_normalizedItems ho hout hserver
    · exact fun e he => stripped_normalizedItems he

end History
