/-
# Hidden inline tags in streamed text

The parser takes tags out of a text that arrives in chunks: the text outside of the tags is
visible, the contents of the tags are extracted.  A chunk may end inside a tag, or inside
the delimiter of one.
-/
import BetterCodex.StreamSearch

namespace StreamParser

open RustStr

/-! ## Chunks -/

structure StreamTextChunk (E : Type) where
  visibleText : Text := []
  extracted : List E := []
  deriving DecidableEq, Repr

namespace StreamTextChunk

variable {E : Type}

/-- What two calls give together. -/
def append (a b : StreamTextChunk E) : StreamTextChunk E where
  visibleText := a.visibleText ++ b.visibleText
  extracted := a.extracted ++ b.extracted

theorem append_assoc (a b c : StreamTextChunk E) : (a.append b).append c = a.append (b.append c) := by
  simp only [append, List.append_assoc]

theorem empty_append (a : StreamTextChunk E) : append {} a = a := rfl

end StreamTextChunk

/-! ## The parser -/

variable {T : Type}

/-- `InlineTagSpec`; the delimiters are not empty. -/
structure InlineTagSpec (T : Type) where
  tag : T
  openTag : Text
  closeTag : Text
  openTag_ne_nil : openTag ≠ []
  closeTag_ne_nil : closeTag ≠ []

structure ExtractedInlineTag (T : Type) where
  tag : T
  content : Text
  deriving DecidableEq, Repr

/-- `ActiveTag`, with the specification that its closing delimiter comes from. -/
structure ActiveTag (T : Type) where
  spec : InlineTagSpec T
  content : Text

structure InlineHiddenTagParser (T : Type) where
  specs : List (InlineTagSpec T)
  pending : Text := []
  active : Option (ActiveTag T) := none

/-- An opening delimiter in the pending text. -/
structure Opening (T : Type) where
  before : Text
  rest : Text
  spec : InlineTagSpec T

/-- The first opening delimiter is the leftmost one, and the longest of those. -/
def Opening.precedes (a b : Opening T) : Bool :=
  a.before.length < b.before.length ∨
    a.before.length = b.before.length ∧ b.spec.openTag.length < a.spec.openTag.length

def findOpening (pending : Text) (spec : InlineTagSpec T) : Option (Opening T) :=
  (splitOnce spec.openTag pending).map fun (before, rest) => { before, rest, spec }

/-- `find_next_open`; of equal ones the first is taken. -/
def findNextOpen (pending : Text) : List (InlineTagSpec T) → Option (Opening T)
  | [] => none
  | spec :: specs =>
    match findOpening pending spec, findNextOpen pending specs with
    | none, later => later
    | some opening, none => some opening
    | some opening, some later => if later.precedes opening then some later else some opening

def maxOpenPrefixSuffixLen (specs : List (InlineTagSpec T)) (pending : Text) : ℕ :=
  (specs.map fun spec => longestSuffixPrefixLen pending spec.openTag).foldl max 0

theorem splitOnce_rest_lt {needle pending before rest : Text} (hneedle : needle ≠ [])
    (h : splitOnce needle pending = some (before, rest)) : rest.length < pending.length := by
  have hpos := List.length_pos_iff.2 hneedle
  rw [splitOnce_eq_some h, List.length_append, List.length_append]
  omega

theorem findNextOpen_rest_lt {pending : Text} {specs : List (InlineTagSpec T)} {opening : Opening T}
    (h : findNextOpen pending specs = some opening) : opening.rest.length < pending.length := by
  have hone : ∀ spec, findOpening pending spec = some opening →
      opening.rest.length < pending.length := by
    intro spec hspec
    obtain ⟨⟨before, rest⟩, hcut, rfl⟩ := Option.map_eq_some_iff.1 hspec
    exact splitOnce_rest_lt spec.openTag_ne_nil hcut
  induction specs with
  | nil => cases h
  | cons spec specs ih =>
    rw [findNextOpen] at h
    split at h
    · exact ih h
    · rename_i hopening hnone
      exact hone spec (hopening.trans h)
    · rename_i hopening hlater
      split_ifs at h
      · exact ih (hlater.trans h)
      · exact hone spec (hopening.trans h)

open StreamTextChunk

/-- The loop of `push_str` over the pending text: the tag that is open at its end, the text
that stays pending, and what the loop gives out. -/
def pushLoop (specs : List (InlineTagSpec T)) (active : Option (ActiveTag T)) (pending : Text) :
    Option (ActiveTag T) × Text × StreamTextChunk (ExtractedInlineTag T) :=
  match active with
  | some active =>
    match _ : splitOnce active.spec.closeTag pending with
    | some (before, rest) =>
      let (active', pending', out) := pushLoop specs none rest
      (active', pending', append
        { extracted := [{ tag := active.spec.tag, content := active.content ++ before }] } out)
    | none =>
      let take := pending.length - longestSuffixPrefixLen pending active.spec.closeTag
      (some { active with content := active.content ++ pending.take take }, pending.drop take, {})
  | none =>
    match _ : findNextOpen pending specs with
    | some opening =>
      let (active', pending', out) :=
        pushLoop specs (some { spec := opening.spec, content := [] }) opening.rest
      (active', pending', append { visibleText := opening.before } out)
    | none =>
      let take := pending.length - maxOpenPrefixSuffixLen specs pending
      (none, pending.drop take, { visibleText := pending.take take })
termination_by pending.length
decreasing_by
  · exact splitOnce_rest_lt active.spec.closeTag_ne_nil ‹_›
  · exact findNextOpen_rest_lt ‹_›

namespace InlineHiddenTagParser

def pushStr (p : InlineHiddenTagParser T) (chunk : Text) :
    InlineHiddenTagParser T × StreamTextChunk (ExtractedInlineTag T) :=
  let (active, pending, out) := pushLoop p.specs p.active (p.pending ++ chunk)
  ({ p with active, pending }, out)

def finish (p : InlineHiddenTagParser T) :
    InlineHiddenTagParser T × StreamTextChunk (ExtractedInlineTag T) :=
  match p.active with
  | some active =>
    ({ p with active := none, pending := [] },
      { extracted := [{ tag := active.spec.tag, content := active.content ++ p.pending }] })
  | none => ({ p with pending := [] }, { visibleText := p.pending })

end InlineHiddenTagParser

/-! ## One tag -/

section
variable (spec : InlineTagSpec T)

theorem findNextOpen_singleton (pending : Text) :
    findNextOpen pending [spec] = findOpening pending spec := by
  rw [findNextOpen, findNextOpen]
  cases findOpening pending spec <;> rfl

theorem maxOpenPrefixSuffixLen_singleton (pending : Text) :
    maxOpenPrefixSuffixLen [spec] pending = longestSuffixPrefixLen pending spec.openTag :=
  Nat.zero_max _

/-- The loop at a closing tag. -/
theorem pushLoop_close {own : InlineTagSpec T} (content : Text) {pending before rest : Text}
    (h : splitOnce own.closeTag pending = some (before, rest)) :
    pushLoop [spec] (some ⟨own, content⟩) pending =
      ((pushLoop [spec] none rest).1, (pushLoop [spec] none rest).2.1,
        append { extracted := [{ tag := own.tag, content := content ++ before }] }
          (pushLoop [spec] none rest).2.2) := by
  rw [pushLoop]
  dsimp only
  split
  · rename_i before' rest' h'
    obtain ⟨rfl, rfl⟩ := Prod.mk.inj (Option.some.inj (h'.symm.trans h))
    rfl
  · rename_i h'
    exact absurd (h'.symm.trans h) nofun

theorem pushLoop_content {own : InlineTagSpec T} (content : Text) {pending : Text}
    (h : splitOnce own.closeTag pending = none) :
    pushLoop [spec] (some ⟨own, content⟩) pending =
      (some ⟨own, content ++ givenUp pending own.closeTag⟩, kept pending own.closeTag, {}) := by
  rw [pushLoop]
  dsimp only
  split
  · rename_i h'
    exact absurd (h.symm.trans h') nofun
  · rfl

/-- The loop at an opening tag. -/
theorem pushLoop_open {pending before rest : Text}
    (h : splitOnce spec.openTag pending = some (before, rest)) :
    pushLoop [spec] none pending =
      ((pushLoop [spec] (some ⟨spec, []⟩) rest).1, (pushLoop [spec] (some ⟨spec, []⟩) rest).2.1,
        append { visibleText := before }
          (pushLoop [spec] (some ⟨spec, []⟩) rest).2.2) := by
  have hfind : findNextOpen pending [spec] = some ⟨before, rest, spec⟩ := by
    rw [findNextOpen_singleton, findOpening, h]
    rfl
  conv_lhs => rw [pushLoop]
  dsimp only
  split
  · rename_i opening h'
    obtain rfl := Option.some.inj (h'.symm.trans hfind)
    rfl
  · rename_i h'
    exact absurd (h'.symm.trans hfind) nofun

theorem pushLoop_visible {pending : Text} (h : splitOnce spec.openTag pending = none) :
    pushLoop [spec] none pending =
      (none, kept pending spec.openTag, { visibleText := givenUp pending spec.openTag }) := by
  have hfind : findNextOpen pending [spec] = none := by
    rw [findNextOpen_singleton, findOpening, h]
    rfl
  rw [pushLoop]
  dsimp only
  split
  · rename_i h'
    exact absurd (hfind.symm.trans h') nofun
  · rw [maxOpenPrefixSuffixLen_singleton]
    rfl

/-- **The loop over two chunks.**  Parsing a text, and then what stays pending of it with
more text behind it, is parsing both together. -/
theorem pushLoop_append (active : Option (ActiveTag T)) (pending later : Text) :
    pushLoop [spec] active (pending ++ later) =
      let first := pushLoop [spec] active pending
      let second := pushLoop [spec] first.1 (first.2.1 ++ later)
      (second.1, second.2.1, first.2.2.append second.2.2) := by
  -- by induction on the text that is left to the loop
  induction hlength : pending.length using Nat.strong_induction_on generalizing active pending with
  | _ n ih =>
    subst hlength
    dsimp only
    cases active with
    | some active =>
      obtain ⟨own, content⟩ := active
      cases hcut : splitOnce own.closeTag pending with
      | some cut =>
        obtain ⟨before, rest⟩ := cut
        have hrest := ih _ (splitOnce_rest_lt own.closeTag_ne_nil hcut) none rest rfl
        dsimp only at hrest
        rw [pushLoop_close spec content hcut,
          pushLoop_close spec content (splitOnce_append_of_some hcut own.closeTag_ne_nil later), hrest]
        simp only [append_assoc]
      | none =>
        have hlater := splitOnce_append_of_none hcut later
        rw [pushLoop_content spec content hcut]
        dsimp only
        rw [empty_append]
        cases hnext : splitOnce own.closeTag (kept pending own.closeTag ++ later) with
        | some cut =>
          rw [hnext] at hlater
          rw [pushLoop_close spec content hlater, pushLoop_close spec _ hnext]
          simp only [List.append_assoc]
        | none =>
          rw [hnext] at hlater
          rw [pushLoop_content spec content hlater, pushLoop_content spec _ hnext, givenUp_append,
            kept_append]
          simp only [List.append_assoc]
    | none =>
      cases hcut : splitOnce spec.openTag pending with
      | some cut =>
        obtain ⟨before, rest⟩ := cut
        have hrest := ih _ (splitOnce_rest_lt spec.openTag_ne_nil hcut) (some ⟨spec, []⟩) rest rfl
        dsimp only at hrest
        rw [pushLoop_open spec hcut,
          pushLoop_open spec (splitOnce_append_of_some hcut spec.openTag_ne_nil later), hrest]
        simp only [append_assoc]
      | none =>
        have hlater := splitOnce_append_of_none hcut later
        rw [pushLoop_visible spec hcut]
        dsimp only
        cases hnext : splitOnce spec.openTag (kept pending spec.openTag ++ later) with
        | some cut =>
          rw [hnext] at hlater
          rw [pushLoop_open spec hlater, pushLoop_open spec hnext]
          simp only [append, List.append_assoc, List.nil_append]
        | none =>
          rw [hnext] at hlater
          rw [pushLoop_visible spec hlater, pushLoop_visible spec hnext]
          rw [givenUp_append, kept_append]
          rfl

end

end StreamParser
