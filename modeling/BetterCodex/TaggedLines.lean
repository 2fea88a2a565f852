/-
# Tag blocks in streamed text, line by line

A tag stands alone on its line.  The parser holds a line back as long as it may still be a
tag, and gives everything else out as text.
-/
import BetterCodex.RustStr

namespace StreamParser

open RustStr List Option

variable {T : Type}

structure TagSpec (T : Type) where
  openTag : Text
  closeTag : Text
  tag : T

inductive TaggedLineSegment (T : Type) where
  | normal (text : Text)
  | tagStart (tag : T)
  | tagDelta (tag : T) (text : Text)
  | tagEnd (tag : T)
  deriving DecidableEq, Repr

/-! ## Segments -/

namespace TaggedLineSegment

/-- A text in a tag block, or outside of one. -/
def ofText : Option T → Text → TaggedLineSegment T
  | none, text => .normal text
  | some tag, text => .tagDelta tag text

variable [DecidableEq T]

/-- The text of a segment that stands in this block. -/
def textOf (block : Option T) : TaggedLineSegment T → Option Text
  | .normal text => if block = none then some text else none
  | .tagDelta tag text => if block = some tag then some text else none
  | .tagStart _ | .tagEnd _ => none

theorem textOf_ofText (block : Option T) (text : Text) : (ofText block text).textOf block = some text := by
  cases block with
  | none => rfl
  | some tag => exact if_pos rfl

theorem eq_ofText {block : Option T} {segment : TaggedLineSegment T} {text : Text}
    (h : segment.textOf block = some text) : segment = ofText block text := by
  cases segment with
  | normal text' =>
    rw [textOf] at h
    split_ifs at h with hblock
    rw [hblock, ← some.inj h]
    rfl
  | tagDelta tag text' =>
    rw [textOf] at h
    split_ifs at h with hblock
    rw [hblock, ← some.inj h]
    rfl
  | tagStart => cases h
  | tagEnd => cases h

end TaggedLineSegment

open TaggedLineSegment

/-- The text outside of the blocks. -/
def normalText (segments : List (TaggedLineSegment T)) : Text :=
  segments.flatMap fun
    | .normal text => text
    | _ => []

theorem normalText_append (a b : List (TaggedLineSegment T)) :
    normalText (a ++ b) = normalText a ++ normalText b :=
  flatMap_append

section
variable [DecidableEq T]

/-- The case of `push_segment` for texts: no segment is empty, and a text goes into the last
segment where that is a text of the same block. -/
def pushTextSegment (segments : List (TaggedLineSegment T)) (block : Option T) (delta : Text) :
    List (TaggedLineSegment T) :=
  if delta.isEmpty then segments
  else
    match segments.getLast?.bind (textOf block) with
    | some existing => segments.dropLast ++ [ofText block (existing ++ delta)]
    | none => segments ++ [ofText block delta]

def pushSegment (segments : List (TaggedLineSegment T)) :
    TaggedLineSegment T → List (TaggedLineSegment T)
  | .normal delta => pushTextSegment segments none delta
  | .tagDelta tag delta => pushTextSegment segments (some tag) delta
  | .tagStart tag => segments ++ [.tagStart tag]
  | .tagEnd tag => segments ++ [.tagEnd tag]

/-- Segments pushed one after the other. -/
def pushAll (segments more : List (TaggedLineSegment T)) : List (TaggedLineSegment T) :=
  more.foldl pushSegment segments

theorem pushAll_append (segments a b : List (TaggedLineSegment T)) :
    pushAll segments (a ++ b) = pushAll (pushAll segments a) b :=
  foldl_append

variable (segments : List (TaggedLineSegment T)) (block : Option T) (text : Text)

theorem pushSegment_ofText :
    pushSegment segments (ofText block text) = pushTextSegment segments block text := by
  cases block <;> rfl

theorem pushTextSegment_nil : pushTextSegment segments block [] = segments := rfl

theorem pushTextSegment_cons (c : Char) (delta : Text) :
    pushTextSegment segments block (c :: delta) =
      match segments.getLast?.bind (textOf block) with
      | some existing => segments.dropLast ++ [ofText block (existing ++ c :: delta)]
      | none => segments ++ [ofText block (c :: delta)] := rfl

/-- Two texts in a row are one text. -/
theorem pushTextSegment_append (a b : Text) :
    pushTextSegment (pushTextSegment segments block a) block b =
      pushTextSegment segments block (a ++ b) := by
  cases a with
  | nil => rw [pushTextSegment_nil, nil_append]
  | cons c a =>
    cases b with
    | nil => rw [pushTextSegment_nil, append_nil]
    | cons d b =>
      -- the first part is the last segment, or the end of it
      rw [cons_append, pushTextSegment_cons segments, pushTextSegment_cons segments,
        pushTextSegment_cons]
      cases segments.getLast?.bind (textOf block) with
      | none => simp [textOf_ofText]
      | some existing => simp [textOf_ofText]

variable (more : List (TaggedLineSegment T))

/-- **Merging a text is merging it later.** -/
theorem pushAll_pushTextSegment (block : Option T) (text : Text) :
    pushAll segments (pushTextSegment more block text) =
      pushTextSegment (pushAll segments more) block text := by
  cases text with
  | nil => rw [pushTextSegment_nil, pushTextSegment_nil]
  | cons c text =>
    rw [pushTextSegment_cons more]
    cases hlast : more.getLast?.bind (textOf block) with
    | none =>
      rw [pushAll_append, ← pushSegment_ofText]
      rfl
    | some existing =>
      obtain ⟨last, hmore, htext⟩ := bind_eq_some_iff.1 hlast
      obtain ⟨front, rfl⟩ := getLast?_eq_some_iff.1 hmore
      obtain rfl := eq_ofText htext
      rw [dropLast_concat, pushAll_append, pushAll_append]
      show pushSegment _ _ = pushTextSegment (pushSegment _ _) _ _
      rw [pushSegment_ofText, pushSegment_ofText, pushTextSegment_append]

theorem pushAll_pushSegment (segment : TaggedLineSegment T) :
    pushAll segments (pushSegment more segment) = pushSegment (pushAll segments more) segment := by
  cases segment with
  | normal text => exact pushAll_pushTextSegment segments more none text
  | tagDelta tag text => exact pushAll_pushTextSegment segments more (some tag) text
  | tagStart tag => exact pushAll_append segments more [.tagStart tag]
  | tagEnd tag => exact pushAll_append segments more [.tagEnd tag]

/-- Segments may be merged before they are pushed. -/
theorem pushAll_pushAll : pushAll segments (pushAll [] more) = pushAll segments more := by
  induction more using List.reverseRecOn with
  | nil => rfl
  | append_singleton more segment ih =>
    rw [pushAll_append, pushAll_append, ← ih]
    exact pushAll_pushSegment segments (pushAll [] more) segment

/-- Text outside of tags stays in order. -/
theorem normalText_pushTextSegment :
    normalText (pushTextSegment segments block text) =
      normalText segments ++ normalText [ofText block text] := by
  cases text with
  | nil => cases block <;> simp [pushTextSegment_nil, normalText, ofText]
  | cons c text =>
    rw [pushTextSegment_cons]
    cases hlast : segments.getLast?.bind (textOf block) with
    | none => exact normalText_append _ _
    | some existing =>
      obtain ⟨last, hsegments, htext⟩ := bind_eq_some_iff.1 hlast
      obtain ⟨front, rfl⟩ := getLast?_eq_some_iff.1 hsegments
      obtain rfl := eq_ofText htext
      rw [dropLast_concat, normalText_append, normalText_append, append_assoc]
      cases block <;> simp [normalText, ofText]

/-- Merging does not change the text outside of the blocks. -/
theorem normalText_pushAll :
    normalText (pushAll segments more) = normalText segments ++ normalText more := by
  induction more using List.reverseRecOn with
  | nil => exact (append_nil _).symm
  | append_singleton more segment ih =>
    rw [pushAll_append, normalText_append, ← append_assoc, ← ih]
    cases segment with
    | normal text => exact normalText_pushTextSegment _ none text
    | tagDelta tag text => exact normalText_pushTextSegment _ (some tag) text
    | tagStart tag => exact normalText_append _ _
    | tagEnd tag => exact normalText_append _ _

end

/-! ## The parser -/

structure TaggedLineParser (T : Type) where
  specs : List (TagSpec T)
  activeTag : Option T := none
  detectTag : Bool := true
  lineBuffer : Text := []

namespace TaggedLineParser

variable (p : TaggedLineParser T)

def isTagPrefix (slug : Text) : Bool :=
  p.specs.any fun spec =>
    startsWith spec.openTag (trimEnd slug) || startsWith spec.closeTag (trimEnd slug)

def matchOpen (slug : Text) : Option T :=
  (p.specs.find? (·.openTag = slug)).map (·.tag)

def matchClose (slug : Text) : Option T :=
  (p.specs.find? (·.closeTag = slug)).map (·.tag)

variable [DecidableEq T]

def pushText (p : TaggedLineParser T) (text : Text) (segments : List (TaggedLineSegment T)) :
    List (TaggedLineSegment T) :=
  pushTextSegment segments p.activeTag text

/-- What a line that is over turns out to be: a tag that opens or closes a block, or text. -/
def takeLine (p : TaggedLineParser T) : TaggedLineParser T × TaggedLineSegment T :=
  let line := p.lineBuffer
  let slug := trimEnd (trimStart (dropTrailing '\n' line))
  let p := { p with lineBuffer := [] }
  match (p.matchOpen slug).filter (fun _ => p.activeTag.isNone) with
  | some tag => ({ p with activeTag := some tag }, .tagStart tag)
  | none =>
    match (p.matchClose slug).filter (fun tag => p.activeTag = some tag) with
    | some tag => ({ p with activeTag := none }, .tagEnd tag)
    | none => (p, ofText p.activeTag line)

def finishLine (p : TaggedLineParser T) (segments : List (TaggedLineSegment T)) :
    TaggedLineParser T × List (TaggedLineSegment T) :=
  ({ p.takeLine.1 with detectTag := true }, pushSegment segments p.takeLine.2)

/-- One round of the loop of `parse`; `run` is the text of a line that is no tag. -/
def parseChar : TaggedLineParser T × Text × List (TaggedLineSegment T) → Char →
    TaggedLineParser T × Text × List (TaggedLineSegment T)
  | (p, run, segments), ch =>
    if p.detectTag then
      let segments := if run.isEmpty then segments else p.pushText run segments
      let p := { p with lineBuffer := p.lineBuffer ++ [ch] }
      if ch = '\n' then
        let (p, segments) := p.finishLine segments
        (p, [], segments)
      else if (trimStart p.lineBuffer).isEmpty || p.isTagPrefix (trimStart p.lineBuffer) then
        (p, [], segments)
      else
        ({ p with lineBuffer := [], detectTag := false }, [], p.pushText p.lineBuffer segments)
    else
      let run := run ++ [ch]
      if ch = '\n' then ({ p with detectTag := true }, [], p.pushText run segments)
      else (p, run, segments)

def parse (p : TaggedLineParser T) (delta : Text) :
    TaggedLineParser T × List (TaggedLineSegment T) :=
  let (p, run, segments) := delta.foldl parseChar (p, [], [])
  (p, if run.isEmpty then segments else p.pushText run segments)

def finish (p : TaggedLineParser T) : TaggedLineParser T × List (TaggedLineSegment T) :=
  let (p, segments) :=
    if p.lineBuffer.isEmpty then (p, []) else (p.takeLine.1, pushSegment [] p.takeLine.2)
  let segments := match p.activeTag with
    | some tag => pushSegment segments (.tagEnd tag)
    | none => segments
  ({ p with activeTag := none, detectTag := true }, segments)

/-! ## One character -/

/-- What one character gives, and the parser behind it. -/
def emit (p : TaggedLineParser T) (ch : Char) : TaggedLineParser T × List (TaggedLineSegment T) :=
  if p.detectTag then
    let p := { p with lineBuffer := p.lineBuffer ++ [ch] }
    if ch = '\n' then ({ p.takeLine.1 with detectTag := true }, [p.takeLine.2])
    else if (trimStart p.lineBuffer).isEmpty || p.isTagPrefix (trimStart p.lineBuffer) then (p, [])
    else ({ p with lineBuffer := [], detectTag := false }, [ofText p.activeTag p.lineBuffer])
  else ({ p with detectTag := ch = '\n' }, [ofText p.activeTag [ch]])

/-- The parser behind a text. -/
def after (p : TaggedLineParser T) (text : Text) : TaggedLineParser T :=
  text.foldl (fun p ch => (p.emit ch).1) p

/-- What the characters of a text give one by one. -/
def emitted (p : TaggedLineParser T) : Text → List (TaggedLineSegment T)
  | [] => []
  | ch :: text => (p.emit ch).2 ++ (p.emit ch).1.emitted text

variable (p : TaggedLineParser T)

theorem after_append (a b : Text) : p.after (a ++ b) = (p.after a).after b :=
  foldl_append

theorem emitted_append (a b : Text) :
    p.emitted (a ++ b) = p.emitted a ++ (p.after a).emitted b := by
  induction a generalizing p with
  | nil => rfl
  | cons ch a ih =>
    rw [cons_append, emitted, emitted, ih, append_assoc]
    rfl

theorem ite_isEmpty_pushText (run : Text) (segments : List (TaggedLineSegment T)) :
    (if run.isEmpty then segments else p.pushText run segments) = p.pushText run segments := by
  cases run <;> rfl

/-- **One round of the loop**: the segments with the open run behind them are what the
characters gave so far.  There is no open run while the parser looks for a tag. -/
theorem parseChar_spec (run : Text) (segments : List (TaggedLineSegment T)) (ch : Char)
    (hrun : p.detectTag = true → run = []) :
    ∃ run' segments', parseChar (p, run, segments) ch = ((p.emit ch).1, run', segments') ∧
      ((p.emit ch).1.detectTag = true → run' = []) ∧
      (p.emit ch).1.pushText run' segments' = pushAll (p.pushText run segments) (p.emit ch).2 := by
  by_cases hdetect : p.detectTag = true
  · obtain rfl := hrun hdetect
    rw [parseChar, emit, if_pos hdetect, if_pos hdetect]
    by_cases hnewline : ch = '\n'
    · rw [if_pos hnewline, if_pos hnewline]
      exact ⟨_, _, rfl, fun _ => rfl, rfl⟩
    · rw [if_neg hnewline, if_neg hnewline]
      set buffered : TaggedLineParser T := { p with lineBuffer := p.lineBuffer ++ [ch] } with hbuffered
      by_cases hheld : ((trimStart buffered.lineBuffer).isEmpty ||
          buffered.isTagPrefix (trimStart buffered.lineBuffer)) = true
      · rw [if_pos hheld, if_pos hheld]
        exact ⟨_, _, rfl, fun _ => rfl, rfl⟩
      · rw [if_neg hheld, if_neg hheld]
        refine ⟨_, _, rfl, fun _ => rfl, ?_⟩
        exact (pushSegment_ofText segments p.activeTag _).symm
  · rw [parseChar, emit, if_neg hdetect, if_neg hdetect]
    -- the character is one more of the run
    have hlonger : ∀ q : TaggedLineParser T, q.activeTag = p.activeTag →
        q.pushText (run ++ [ch]) segments =
          pushAll (p.pushText run segments) [ofText p.activeTag [ch]] := by
      intro q hq
      show _ = pushSegment _ _
      rw [pushSegment_ofText, pushText, pushText, hq, pushTextSegment_append]
    by_cases hnewline : ch = '\n'
    · rw [if_pos hnewline]
      refine ⟨[], p.pushText (run ++ [ch]) segments, ?_, fun _ => rfl, hlonger p rfl⟩
      simp [hnewline]
    · rw [if_neg hnewline]
      refine ⟨run ++ [ch], segments, ?_, fun h => ?_, hlonger _ rfl⟩
      · cases p
        simp_all
      · simp [hnewline] at h

/-- **A call merges what its characters give.** -/
theorem parse_eq (delta : Text) :
    p.parse delta = (p.after delta, pushAll [] (p.emitted delta)) := by
  have hloop : ∀ (q : TaggedLineParser T) (run : Text) (segments : List (TaggedLineSegment T)),
      (q.detectTag = true → run = []) →
      ∃ run' segments', delta.foldl parseChar (q, run, segments) = (q.after delta, run', segments') ∧
        (q.after delta).pushText run' segments' =
          pushAll (q.pushText run segments) (q.emitted delta) := by
    induction delta with
    | nil => exact fun q run segments _ => ⟨run, segments, rfl, rfl⟩
    | cons ch delta ih =>
      intro q run segments hrun
      obtain ⟨run₁, segments₁, hround, hrun₁, hpushed₁⟩ := q.parseChar_spec run segments ch hrun
      obtain ⟨run₂, segments₂, hloop, hpushed₂⟩ := ih (q.emit ch).1 run₁ segments₁ hrun₁
      refine ⟨run₂, segments₂, ?_, ?_⟩
      · rw [foldl_cons, hround, hloop]
        rfl
      · rw [emitted, pushAll_append, ← hpushed₁, ← hpushed₂]
        rfl
  obtain ⟨run, segments, hloop, hpushed⟩ := hloop p [] [] fun _ => rfl
  rw [parse, hloop]
  dsimp only
  rw [ite_isEmpty_pushText, hpushed]
  rfl

end TaggedLineParser

end StreamParser
