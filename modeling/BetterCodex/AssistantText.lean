/-
# The markup of streamed assistant text

Two parsers in a row: citations are taken out of the text first, and in plan mode the
visible rest goes through the parser for proposed plans.
-/
import BetterCodex.InlineHiddenTag
import BetterCodex.TaggedLines

namespace StreamParser

open RustStr List

/-! ## Citations -/

inductive CitationTag where
  | citation
  deriving DecidableEq, Repr

def citationOpen : Text := "<oai-mem-citation>".toList
def citationClose : Text := "</oai-mem-citation>".toList

def citationSpec : InlineTagSpec CitationTag where
  tag := .citation
  openTag := citationOpen
  closeTag := citationClose
  openTag_ne_nil := by decide
  closeTag_ne_nil := by decide

/-- `CitationStreamParser`: the parser for one tag. -/
structure CitationStreamParser where
  inner : InlineHiddenTagParser CitationTag := { specs := [citationSpec] }
  inner_specs : inner.specs = [citationSpec] := by rfl

/-- The contents of the tags. -/
def StreamTextChunk.contents (chunk : StreamTextChunk (ExtractedInlineTag CitationTag)) :
    StreamTextChunk Text where
  visibleText := chunk.visibleText
  extracted := chunk.extracted.map (·.content)

namespace CitationStreamParser

def pushStr (p : CitationStreamParser) (chunk : Text) : CitationStreamParser × StreamTextChunk Text :=
  ({ inner := (p.inner.pushStr chunk).1, inner_specs := p.inner_specs },
    (p.inner.pushStr chunk).2.contents)

def finish (p : CitationStreamParser) : StreamTextChunk Text := p.inner.finish.2.contents

/-- **Two chunks of a text with citations.** -/
theorem pushStr_append (p : CitationStreamParser) (a b : Text) :
    p.pushStr (a ++ b) =
      (((p.pushStr a).1.pushStr b).1, (p.pushStr a).2.append ((p.pushStr a).1.pushStr b).2) := by
  obtain ⟨⟨specs, pending, active⟩, hspecs⟩ := p
  change specs = [citationSpec] at hspecs
  subst hspecs
  have hloop := pushLoop_append citationSpec active (pending ++ a) b
  rw [append_assoc] at hloop
  simp only [pushStr, InlineHiddenTagParser.pushStr, hloop, StreamTextChunk.contents,
    StreamTextChunk.append, map_append]

end CitationStreamParser

/-! ## Proposed plans -/

inductive PlanTag where
  | proposedPlan
  deriving DecidableEq, Repr

def planOpenTag : Text := "<proposed_plan>".toList
def planCloseTag : Text := "</proposed_plan>".toList

inductive ProposedPlanSegment where
  | normal (text : Text)
  | proposedPlanStart
  | proposedPlanDelta (text : Text)
  | proposedPlanEnd
  deriving DecidableEq, Repr

/-- The segment as the parser of plans names it. -/
def ProposedPlanSegment.ofTagged : TaggedLineSegment PlanTag → ProposedPlanSegment
  | .normal text => .normal text
  | .tagStart .proposedPlan => .proposedPlanStart
  | .tagDelta .proposedPlan text => .proposedPlanDelta text
  | .tagEnd .proposedPlan => .proposedPlanEnd

def ProposedPlanSegment.toTagged : ProposedPlanSegment → TaggedLineSegment PlanTag
  | .normal text => .normal text
  | .proposedPlanStart => .tagStart .proposedPlan
  | .proposedPlanDelta text => .tagDelta .proposedPlan text
  | .proposedPlanEnd => .tagEnd .proposedPlan

theorem map_toTagged_map_ofTagged (segments : List (TaggedLineSegment PlanTag)) :
    (segments.map ProposedPlanSegment.ofTagged).map ProposedPlanSegment.toTagged = segments := by
  rw [map_map]
  conv_rhs => rw [← map_id segments]
  refine map_congr_left fun segment _ => ?_
  cases segment <;> rfl

/-- The plan segments with adjacent texts of one kind merged. -/
def mergePlanText (segments : List ProposedPlanSegment) : List ProposedPlanSegment :=
  (pushAll [] (segments.map (·.toTagged))).map .ofTagged

def mapSegments (segments : List (TaggedLineSegment PlanTag)) : StreamTextChunk ProposedPlanSegment where
  visibleText := normalText segments
  extracted := segments.map .ofTagged

structure ProposedPlanParser where
  parser : TaggedLineParser PlanTag :=
    { specs := [{ openTag := planOpenTag, closeTag := planCloseTag, tag := .proposedPlan }] }

namespace ProposedPlanParser

def pushStr (p : ProposedPlanParser) (chunk : Text) :
    ProposedPlanParser × StreamTextChunk ProposedPlanSegment :=
  (⟨(p.parser.parse chunk).1⟩, mapSegments (p.parser.parse chunk).2)

def finish (p : ProposedPlanParser) : StreamTextChunk ProposedPlanSegment :=
  mapSegments p.parser.finish.2

/-- **Two chunks of a text with plans**: the parser and the visible text are the same, the
segments up to merging. -/
theorem pushStr_append (p : ProposedPlanParser) (a b : Text) :
    (p.pushStr (a ++ b)).1 = ((p.pushStr a).1.pushStr b).1 ∧
      (p.pushStr (a ++ b)).2.visibleText =
        (p.pushStr a).2.visibleText ++ ((p.pushStr a).1.pushStr b).2.visibleText ∧
      mergePlanText (p.pushStr (a ++ b)).2.extracted =
        mergePlanText ((p.pushStr a).2.extracted ++ ((p.pushStr a).1.pushStr b).2.extracted) := by
  simp only [pushStr, TaggedLineParser.parse_eq, mapSegments]
  refine ⟨by rw [TaggedLineParser.after_append], ?_, ?_⟩
  · rw [TaggedLineParser.emitted_append, normalText_pushAll, normalText_pushAll, normalText_pushAll,
      normalText_append]
    rfl
  · rw [mergePlanText, mergePlanText, ← map_append, map_toTagged_map_ofTagged,
      map_toTagged_map_ofTagged, pushAll_append, pushAll_pushAll, pushAll_pushAll, pushAll_pushAll,
      TaggedLineParser.emitted_append, pushAll_append]

end ProposedPlanParser

/-! ## Both parsers -/

structure AssistantTextChunk where
  visibleText : Text := []
  citations : List Text := []
  planSegments : List ProposedPlanSegment := []
  deriving DecidableEq, Repr

namespace AssistantTextChunk

/-- What two calls give together. -/
def append (a b : AssistantTextChunk) : AssistantTextChunk where
  visibleText := a.visibleText ++ b.visibleText
  citations := a.citations ++ b.citations
  planSegments := a.planSegments ++ b.planSegments

/-- The result with adjacent text segments merged. -/
def merged (chunk : AssistantTextChunk) : AssistantTextChunk :=
  { chunk with planSegments := mergePlanText chunk.planSegments }

theorem mergePlanText_append (a b : List ProposedPlanSegment) :
    mergePlanText (a ++ b) = mergePlanText (mergePlanText a ++ mergePlanText b) := by
  simp only [mergePlanText, map_append, map_toTagged_map_ofTagged, pushAll_append, pushAll_pushAll]

/-- Parts of a result may be merged before the whole. -/
theorem merged_append {a a' b b' : AssistantTextChunk} (ha : a.merged = a'.merged)
    (hb : b.merged = b'.merged) : (a.append b).merged = (a'.append b').merged := by
  simp only [merged, mk.injEq] at ha hb
  simp only [merged, append, mk.injEq]
  refine ⟨by rw [ha.1, hb.1], by rw [ha.2.1, hb.2.1], ?_⟩
  rw [mergePlanText_append, ha.2.2, hb.2.2, ← mergePlanText_append]

end AssistantTextChunk

structure AssistantTextStreamParser where
  planMode : Bool
  citations : CitationStreamParser := {}
  plan : ProposedPlanParser := {}

namespace AssistantTextStreamParser

variable (p : AssistantTextStreamParser)

def parseVisibleText (visibleText : Text) :
    AssistantTextStreamParser × AssistantTextChunk :=
  if p.planMode then
    let (plan, planChunk) := p.plan.pushStr visibleText
    ({ p with plan },
      { visibleText := planChunk.visibleText, planSegments := planChunk.extracted })
  else (p, { visibleText })

def pushStr (chunk : Text) :
    AssistantTextStreamParser × AssistantTextChunk :=
  let (citations, citationChunk) := p.citations.pushStr chunk
  let (p, out) := { p with citations }.parseVisibleText citationChunk.visibleText
  (p, { out with citations := citationChunk.extracted })

def finish : AssistantTextChunk :=
  let citationChunk := p.citations.finish
  let (p, out) := p.parseVisibleText citationChunk.visibleText
  let out :=
    if p.planMode then
      let tail := p.plan.finish
      { out with
        visibleText := out.visibleText ++ tail.visibleText
        planSegments := out.planSegments ++ tail.extracted }
    else out
  { out with citations := citationChunk.extracted }

/-- The calls of `push_str` for the chunks, and what they give together. -/
def pushAllStr (p : AssistantTextStreamParser) :
    List Text → AssistantTextStreamParser × AssistantTextChunk
  | [] => (p, {})
  | chunk :: chunks =>
    let (p, out) := p.pushStr chunk
    let (p, later) := p.pushAllStr chunks
    (p, out.append later)

/-- What the parser gives for the chunks over all calls. -/
def parseAll (planMode : Bool) (chunks : List Text) : AssistantTextChunk :=
  let (p, out) := pushAllStr { planMode } chunks
  out.append p.finish

/-- **One call for two chunks**: the parser behind it is the same, and so is what it gives,
up to merging. -/
theorem pushStr_append (a b : Text) :
    (p.pushStr (a ++ b)).1 = ((p.pushStr a).1.pushStr b).1 ∧
      (p.pushStr (a ++ b)).2.merged =
        ((p.pushStr a).2.append ((p.pushStr a).1.pushStr b).2).merged := by
  obtain ⟨planMode, citations, plan⟩ := p
  have hcitations := citations.pushStr_append a b
  cases planMode with
  | false =>
    simp only [pushStr, parseVisibleText, Bool.false_eq_true, if_false, hcitations]
    exact ⟨trivial, rfl⟩
  | true =>
    -- the second parser sees the visible text of the two chunks as two chunks
    obtain ⟨hplan, hvisible, hsegments⟩ := plan.pushStr_append (citations.pushStr a).2.visibleText
      ((citations.pushStr a).1.pushStr b).2.visibleText
    simp only [pushStr, parseVisibleText, if_true, hcitations, StreamTextChunk.append,
      AssistantTextChunk.merged, AssistantTextChunk.append, hplan, hvisible, hsegments, and_self]

/-- The run lemma: the calls for some chunks, as one call. -/
theorem pushAllStr_cons (p : AssistantTextStreamParser) (chunk : Text) (chunks : List Text) :
    (p.pushAllStr (chunk :: chunks)).1 = (p.pushStr (chunk ++ chunks.flatten)).1 ∧
      (p.pushAllStr (chunk :: chunks)).2.merged = (p.pushStr (chunk ++ chunks.flatten)).2.merged := by
  induction chunks generalizing p chunk with
  | nil =>
    rw [flatten_nil, append_nil]
    refine ⟨rfl, ?_⟩
    simp [pushAllStr, AssistantTextChunk.append]
  | cons next chunks ih =>
    obtain ⟨hparser, hout⟩ := ih (p.pushStr chunk).1 next
    obtain ⟨hparser', hout'⟩ := p.pushStr_append chunk (next ++ chunks.flatten)
    rw [flatten_cons, hparser', hout', pushAllStr]
    exact ⟨hparser, AssistantTextChunk.merged_append rfl hout⟩

theorem pushStr_nil (planMode : Bool) : pushStr { planMode } [] = ({ planMode }, {}) := by
  have hloop : pushLoop [citationSpec] none [] = (none, [], {}) := by
    rw [pushLoop_visible citationSpec (by decide)]
    simp [kept, givenUp]
  have hcitations : CitationStreamParser.pushStr {} [] = ({}, {}) := by
    simp only [CitationStreamParser.pushStr, InlineHiddenTagParser.pushStr, append_nil, hloop]
    rfl
  rw [pushStr]
  rw [hcitations]
  cases planMode <;> rfl

/-- **The result does not depend on the chunks**: for every text and every way of cutting it
into chunks, in plan mode or not, the calls give the same visible text, citations and plan
segments (adjacent texts merged) as the calls for the whole text. -/
theorem parseAll_flatten (planMode : Bool) (chunks : List Text) :
    (parseAll planMode chunks).merged = (parseAll planMode [chunks.flatten]).merged := by
  cases chunks with
  | nil =>
    rw [parseAll, parseAll, flatten_nil]
    simp only [pushAllStr, pushStr_nil]
    rfl
  | cons chunk chunks =>
    obtain ⟨hparser, hout⟩ := pushAllStr_cons { planMode } chunk chunks
    obtain ⟨hparser', hout'⟩ := pushAllStr_cons { planMode } (chunk ++ chunks.flatten) []
    rw [flatten_nil, append_nil] at hparser' hout'
    rw [parseAll, parseAll, flatten_cons]
    dsimp only
    rw [hparser, hparser']
    exact AssistantTextChunk.merged_append (hout.trans hout'.symm) rfl

end AssistantTextStreamParser

end StreamParser
