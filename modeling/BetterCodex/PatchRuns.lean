/-
# Whole runs of the patch line machine

A run of the machine over complete lines is a run of the automaton of
`PatchPhases`: the phases decide which events are read (`Phase.read`), and the
parser performs them one after the other.
-/
import BetterCodex.PatchPhases

open RustStr List Option

namespace ApplyPatch

open StreamingPatchParser Phase

/-! ## Results -/

theorem toOption_bind {ε α β : Type} (x : Except ε α) (f : α → Except ε β) :
    (x >>= f).toOption = x.toOption.bind (fun a => (f a).toOption) := by
  cases x <;> rfl

theorem toOption_map {ε α β : Type} (x : Except ε α) (f : α → β) :
    (x.map f).toOption = x.toOption.map f := by
  cases x <;> rfl

/-! ## Runs of the automaton -/

/-- The events of a run, from the phase it starts in. -/
def Phase.read : Phase → List Text → Option (List LineEvent)
  | _, [] => some []
  | phase, line :: ls =>
    (classify phase line).bind (fun e => ((phase.after e).read ls).map (e :: ·))

/-- The phase at the end of a run. -/
def Phase.afterAll (phase : Phase) (es : List LineEvent) : Phase := es.foldl after phase

@[simp] theorem Phase.afterAll_cons (phase : Phase) (e : LineEvent) (es : List LineEvent) :
    phase.afterAll (e :: es) = (phase.after e).afterAll es := rfl

variable {line : Text} {ls : List Text} {es : List LineEvent}

theorem Phase.read_cons_eq_some {phase : Phase} (h : phase.read (line :: ls) = some es) :
    ∃ e es', classify phase line = some e ∧ (phase.after e).read ls = some es'
      ∧ es = e :: es' := by
  obtain ⟨e, he, h⟩ := bind_eq_some_iff.mp h
  obtain ⟨es', hes, rfl⟩ := map_eq_some_iff.mp h
  exact ⟨e, es', he, hes, rfl⟩

namespace StreamingPatchParser

/-- One complete line of the patch. -/
def readLine (p : StreamingPatchParser) (line : Text) : Except ParseError StreamingPatchParser :=
  p.nextLine.processLine line

/-- One event of a run. -/
def performLine (p : StreamingPatchParser) (e : LineEvent) : StreamingPatchParser :=
  p.nextLine.perform e

variable {p : StreamingPatchParser}

theorem inv_nextLine (hp : Inv p) : Inv p.nextLine := hp

@[simp] theorem phaseOf_nextLine (p : StreamingPatchParser) : phaseOf p.nextLine = phaseOf p := rfl

theorem inv_init : Inv {} := ⟨rfl, rfl⟩

theorem lineBuffer_perform (p : StreamingPatchParser) (e : LineEvent) :
    (p.perform e).lineBuffer = p.lineBuffer := by
  cases e with
  | header h => cases h <;> rfl
  | fileLine line => simp only [perform]; split <;> rfl
  | body b => simp only [perform]; split <;> rfl
  | _ => rfl

theorem lineBuffer_performLine (p : StreamingPatchParser) (e : LineEvent) :
    (p.performLine e).lineBuffer = [] := lineBuffer_perform _ _

theorem readLine_eq_ok {q : StreamingPatchParser} (hp : Inv p) {line : Text}
    (h : p.readLine line = .ok q) :
    ∃ e, classify (phaseOf p) line = some e ∧ q = p.performLine e := by
  have hline := processLine_toOption (inv_nextLine hp) line
  rw [show p.nextLine.processLine line = .ok q from h] at hline
  obtain ⟨e, he, hq⟩ := map_eq_some_iff.mp hline.symm
  exact ⟨e, he, hq.symm⟩

theorem performLine_spec (hp : Inv p) {line : Text} {e : LineEvent}
    (he : classify (phaseOf p) line = some e) :
    Inv (p.performLine e) ∧ phaseOf (p.performLine e) = (phaseOf p).after e :=
  perform_spec (inv_nextLine hp) (classify_allows he)

/-- **Line runs.**  The machine over a list of lines is the automaton over them. -/
theorem foldlM_readLine_toOption (hp : Inv p) (ls : List Text) :
    (ls.foldlM readLine p).toOption
      = ((phaseOf p).read ls).map (fun es => es.foldl performLine p) := by
  induction ls generalizing p with
  | nil => rfl
  | cons line ls ih =>
    have hline := processLine_toOption (inv_nextLine hp) line
    rw [phaseOf_nextLine] at hline
    rw [foldlM_cons]
    unfold Phase.read
    cases hc : classify (phaseOf p) line with
    | none =>
      rw [hc] at hline
      cases hr : p.readLine line with
      | error err => rfl
      | ok q =>
        rw [show p.nextLine.processLine line = .ok q from hr] at hline
        cases hline
    | some e =>
      rw [hc] at hline
      cases hr : p.readLine line with
      | error err =>
        rw [show p.nextLine.processLine line = .error err from hr] at hline
        cases hline
      | ok q =>
        rw [show p.nextLine.processLine line = .ok q from hr] at hline
        obtain rfl : q = p.performLine e := Option.some.inj hline
        obtain ⟨hinv, hphase⟩ := performLine_spec hp hc
        have hrest := ih hinv
        rw [hphase] at hrest
        simp only [Option.bind_some, Option.map_map]
        exact hrest

/-- **Line runs keep the invariant.** -/
theorem foldl_performLine_spec (hp : Inv p) {ls : List Text} {es : List LineEvent}
    (h : (phaseOf p).read ls = some es) :
    Inv (es.foldl performLine p)
      ∧ phaseOf (es.foldl performLine p) = (phaseOf p).afterAll es := by
  induction ls generalizing p es with
  | nil => cases h; exact ⟨hp, rfl⟩
  | cons line ls ih =>
    obtain ⟨e, es', he, hes, rfl⟩ := read_cons_eq_some h
    obtain ⟨hinv, hphase⟩ := performLine_spec hp he
    rw [← hphase] at hes
    have hrest := ih hinv hes
    rw [hphase] at hrest
    exact hrest

/-! ## Texts -/

theorem foldlM_pushDelta (p : StreamingPatchParser) (deltas : List Text) :
    deltas.foldlM pushDelta p = p.pushDelta deltas.flatten := by
  induction deltas generalizing p with
  | nil => rfl
  | cons d ds ih =>
    rw [foldlM_cons, flatten_cons]
    unfold pushDelta
    rw [foldlM_append]
    congr 1
    funext q
    exact ih q

/-- **Pushing a text.**  Its complete lines are run, and the rest is buffered. -/
theorem pushDelta_eq (hp : Inv p) (hbuffer : '\n' ∉ p.lineBuffer) (text : Text) :
    p.pushDelta text
      = (((completeLines (p.lineBuffer ++ text)).map stripCr).foldlM readLine p).map
          (fun q => { q with lineBuffer := lastLine (p.lineBuffer ++ text) }) := by
  induction text generalizing p with
  | nil =>
    rw [append_nil, completeLines_of_not_mem hbuffer, lastLine_of_not_mem hbuffer]
    rfl
  | cons c text ih =>
    unfold pushDelta
    rw [foldlM_cons]
    by_cases hc : c = '\n'
    · subst hc
      obtain ⟨hlines, hlast⟩ := lines_append_cons hbuffer text
      rw [hlines, hlast, map_cons, foldlM_cons]
      have hchar : p.pushChar '\n' = p.readLine (stripCr p.lineBuffer) := if_pos rfl
      rw [hchar]
      cases hr : p.readLine (stripCr p.lineBuffer) with
      | error err => rfl
      | ok q =>
        obtain ⟨e, he, rfl⟩ := readLine_eq_ok hp hr
        have hempty := lineBuffer_performLine p e
        have hrest := ih (performLine_spec hp he).1 (by simp [hempty])
        rw [hempty, nil_append] at hrest
        exact hrest
    · have hchar : p.pushChar c = .ok { p with lineBuffer := p.lineBuffer ++ [c] } := if_neg hc
      rw [hchar]
      have hrest := ih (p := { p with lineBuffer := p.lineBuffer ++ [c] }) hp
        (by simp [hbuffer, Ne.symm hc])
      simp only [append_assoc, singleton_append] at hrest
      refine hrest.trans ?_
      -- a run never looks at the buffer it starts with
      cases (completeLines (p.lineBuffer ++ c :: text)).map stripCr <;> rfl

end StreamingPatchParser

/-! ## The last line -/

theorem readHeader_eq_endPatch_iff (t : Text) :
    readHeader t = some .endPatch ↔ t = endPatchMarker := by
  unfold readHeader
  by_cases h : t = endPatchMarker
  · simp [h]
  · rw [if_neg h]
    constructor
    · intro hr
      cases ha : stripPrefix addFileMarker t <;> cases hd : stripPrefix deleteFileMarker t <;>
        cases hu : stripPrefix updateFileMarker t <;> simp [ha, hd, hu] at hr
    · exact fun ht => absurd ht h

/-- The end marker, as the update mode looks for it, is the trimmed line too. -/
theorem trim_eq_endPatchMarker (h : trimEnd line = endPatchMarker) :
    trim line = endPatchMarker := trim_of_trimEnd_eq_cons (by decide) h

/-- Only the end marker ends the patch, and only blank lines follow it. -/
theorem after_ne_ended {phase : Phase} {e : LineEvent} (h : classify phase line = some e)
    (hend : trim line ≠ endPatchMarker) (hblank : trim line ≠ []) : phase.after e ≠ .ended := by
  have hheader : ∀ {hd : Header}, hd ≠ .endPatch → hd.phase ≠ .ended := by
    intro hd hne
    cases hd <;> simp_all [Header.phase]
  cases phase with
  | notStarted =>
    simp only [classify] at h
    split_ifs at h
    cases h
    simp [Phase.after]
  | preamble hasEnvironmentId =>
    simp only [classify] at h
    split at h
    · split_ifs at h
      cases h
      simp [Phase.after]
    · obtain ⟨hd, hr, rfl⟩ := map_eq_some_iff.mp h
      refine hheader ?_
      rintro rfl
      exact hend ((readHeader_eq_endPatch_iff _).mp hr)
  | addFile =>
    simp only [classify] at h
    split at h
    · next hd hr =>
        cases h
        refine hheader ?_
        rintro rfl
        exact hend ((readHeader_eq_endPatch_iff _).mp hr)
    · cases h; simp [Phase.after]
    · cases h
  | deleteFile =>
    obtain ⟨hd, hr, rfl⟩ := map_eq_some_iff.mp h
    refine hheader ?_
    rintro rfl
    exact hend ((readHeader_eq_endPatch_iff _).mp hr)
  | updateFile moved chunk =>
    simp only [classify] at h
    split at h
    · next hd hr =>
        split_ifs at h
        cases h
        refine hheader ?_
        rintro rfl
        exact hend (trim_eq_endPatchMarker ((readHeader_eq_endPatch_iff _).mp hr))
    · obtain ⟨b, -, rfl⟩ := map_eq_some_iff.mp h
      cases b <;> cases chunk <;> simp [Phase.after]
  | ended =>
    simp [classify, hblank] at h

namespace StreamingPatchParser

theorem mode_eq_endedPatch_iff (p : StreamingPatchParser) :
    p.state.mode = .endedPatch ↔ phaseOf p = .ended := by
  unfold phaseOf
  cases p.state.mode with
  | updateFile k =>
    cases p.state.hunks.getLast? with
    | none => simp
    | some hunk => cases hunk <;> simp
  | _ => simp

/-- **The last line.**  `finish` accepts an unterminated last line that is not
blank exactly when it is the end marker and the hunk being read may end. -/
theorem finish_toOption {p : StreamingPatchParser} (hp : Inv p) (hb : trim p.lineBuffer ≠ []) :
    p.finish.toOption
      = if trim p.lineBuffer = endPatchMarker ∧ (phaseOf p).closable = true then
          some (p.nextLine.enter .endPatch)
        else none := by
  have hne : p.lineBuffer ≠ [] := by
    intro h
    rw [h] at hb
    exact hb rfl
  unfold finish finishLine
  rw [if_neg hne]
  by_cases hend : trim p.lineBuffer = endPatchMarker
  · have he := ensureUpdateHunkIsNotEmpty_toOption (inv_nextLine hp) endPatchMarker
    rw [phaseOf_nextLine] at he
    rw [if_pos hend, hend]
    cases hc : p.nextLine.ensureUpdateHunkIsNotEmpty endPatchMarker <;>
      cases hcl : (phaseOf p).closable <;>
      simp_all [Except.toOption, Except.map, setMode, enter]
  · rw [if_neg hend, if_neg (fun h => hend h.1)]
    cases hr : p.nextLine.processLine p.lineBuffer with
    | error err => rfl
    | ok q =>
      obtain ⟨e, he, rfl⟩ := readLine_eq_ok hp hr
      have hnot : (p.performLine e).state.mode ≠ .endedPatch := by
        rw [Ne, mode_eq_endedPatch_iff, (performLine_spec hp he).2]
        exact after_ne_ended he hend hb
      simp [hnot, Except.toOption]

end StreamingPatchParser

/-! ## Whole texts -/

/-- The events of a whole patch: its complete lines are read from the start, and
the last line is the end marker, where the last hunk may end. -/
def readPatch (body : List Text) (last : Text) : Option (List LineEvent) :=
  if trim last = endPatchMarker then
    (read .notStarted body).filter (fun es => (afterAll .notStarted es).closable)
  else none

theorem readPatch_eq_some {body : List Text} {last : Text} :
    readPatch body last = some es ↔ trim last = endPatchMarker
      ∧ read .notStarted body = some es
      ∧ (afterAll .notStarted es).closable = true := by
  unfold readPatch
  split_ifs with h
  · rw [filter_eq_some_iff]
    simp [h]
  · simp [h]

/-- The parser that has performed the events of a whole patch. -/
def performPatch (es : List LineEvent) : StreamingPatchParser :=
  (es.foldl performLine {}).nextLine.enter .endPatch

/-- **Whole texts.**  A text whose last line is not blank is parsed by reading
its events and performing them. -/
theorem runText_toOption (text : Text) (h : trim (lastLine text) ≠ []) :
    (runText text).toOption
      = (readPatch ((completeLines text).map stripCr) (lastLine text)).map performPatch := by
  have hpush := pushDelta_eq inv_init
    (by simp : '\n' ∉ ({} : StreamingPatchParser).lineBuffer) text
  have hrun := foldlM_readLine_toOption inv_init
    ((completeLines text).map stripCr)
  unfold runText
  rw [toOption_bind, hpush, toOption_map, nil_append, hrun]
  unfold readPatch
  rw [show phaseOf {} = .notStarted from rfl]
  cases hread : read .notStarted ((completeLines text).map stripCr) with
  | none => simp
  | some es =>
    obtain ⟨hinv, hphase⟩ :=
      foldl_performLine_spec inv_init hread
    let p : StreamingPatchParser :=
      { es.foldl performLine {} with lineBuffer := lastLine text }
    have hp : phaseOf p = afterAll .notStarted es := hphase
    have hfinish := finish_toOption (p := p) hinv h
    rw [hp] at hfinish
    refine hfinish.trans ?_
    by_cases hend : trim (lastLine text) = endPatchMarker
    · by_cases hcl : (afterAll .notStarted es).closable = true
      · rw [if_pos ⟨hend, hcl⟩, if_pos hend, filter_some, if_pos hcl]
        rfl
      · rw [if_neg (fun hc => hcl hc.2), if_pos hend, filter_some, if_neg hcl]
        rfl
    · rw [if_neg (fun hc => hend hc.1), if_neg hend]
      rfl

/-! ## The boundary check -/

/-- The strict check on a list of lines: a begin line first and an end line last. -/
theorem checkPatchBoundariesStrict_toOption (ls : List Text) :
    (checkPatchBoundariesStrict ls).toOption
      = if ls.head?.map trim = some beginPatchMarker ∧ ls.getLast?.map trim = some endPatchMarker
        then some ls else none := by
  unfold checkPatchBoundariesStrict checkStartAndEndLinesStrict
  rw [toOption_map]
  cases ls.head?.map trim <;> cases ls.getLast?.map trim <;>
    simp [Except.toOption] <;> split_ifs <;> simp_all

theorem checkPatchBoundariesLenient_of_not_heredoc (h : isHeredoc ls = false) :
    checkPatchBoundariesLenient ls = checkPatchBoundariesStrict ls := by
  unfold checkPatchBoundariesLenient
  cases checkPatchBoundariesStrict ls <;> simp [h]

/-- What is left without a heredoc ends in the end marker. -/
theorem checkPatchBoundariesLenient_eq_ok {patchLines : List Text}
    (h : checkPatchBoundariesLenient ls = .ok patchLines) :
    (∀ l ∈ patchLines, l ∈ ls) ∧ patchLines.getLast?.map trim = some endPatchMarker := by
  have hstrict : ∀ ls' : List Text, checkPatchBoundariesStrict ls' = .ok patchLines →
      patchLines = ls' ∧ patchLines.getLast?.map trim = some endPatchMarker := by
    intro ls' h'
    have hopt := checkPatchBoundariesStrict_toOption ls'
    rw [h'] at hopt
    split_ifs at hopt with hcheck
    · obtain rfl : patchLines = ls' := some.inj hopt
      exact ⟨rfl, hcheck.2⟩
    · cases hopt
  unfold checkPatchBoundariesLenient at h
  cases hc : checkPatchBoundariesStrict ls with
  | ok ls' =>
    rw [hc] at h
    obtain rfl : ls' = patchLines := Except.ok.inj h
    obtain ⟨rfl, hend⟩ := hstrict ls hc
    exact ⟨fun l hl => hl, hend⟩
  | error e =>
    simp only [hc] at h
    split_ifs at h
    obtain ⟨rfl, hend⟩ := hstrict _ h
    exact ⟨fun l hl => mem_of_mem_drop (mem_of_mem_dropLast hl), hend⟩

theorem not_mem_of_mem_lines {s l : Text} (h : l ∈ lines s) : '\n' ∉ l := by
  rcases mem_append.mp h with h | h
  · obtain ⟨raw, hraw, rfl⟩ := mem_map.mp h
    exact fun hmem => not_mem_completeLines hraw ((stripCr_isPrefix raw).subset hmem)
  · split_ifs at h
    · cases h
    · rw [mem_singleton.mp h]
      exact not_mem_lastLine s

/-- **Successful parses.**  What `parse_patch` returns comes from the events of a
whole patch. -/
theorem parsePatch_eq_ok {text : Text} {args : ApplyPatchArgs} (h : parsePatch text = .ok args) :
    ∃ body last es, readPatch body last = some es
      ∧ args.hunks = (performPatch es).state.hunks
      ∧ args.environmentId = (performPatch es).state.environmentId := by
  obtain ⟨patchLines, hcheck, h⟩ := bind_eq_ok.mp h
  obtain ⟨parser, hrun, h⟩ := bind_eq_ok.mp h
  obtain rfl := Except.ok.inj h
  obtain ⟨hmem, hend⟩ := checkPatchBoundariesLenient_eq_ok hcheck
  obtain ⟨last, hlast, htrim⟩ := map_eq_some_iff.mp hend
  have hconcat := (dropLast_append_getLast? last hlast).symm
  have hlf : ∀ l ∈ patchLines, '\n' ∉ l := fun l hl => not_mem_of_mem_lines (hmem l hl)
  have hsplit : lastLine (joinLines patchLines) = last := by
    rw [hconcat]
    exact (joinLines_concat (fun l hl => hlf l (mem_of_mem_dropLast hl))
      (hlf last (mem_of_getLast? hlast))).2
  have hopt := runText_toOption (joinLines patchLines)
    (by rw [hsplit, htrim]; decide)
  rw [hrun] at hopt
  obtain ⟨es, hes, hparser⟩ := map_eq_some_iff.mp hopt.symm
  exact ⟨_, _, es, hes, by rw [hparser], by rw [hparser]⟩

/-- **Induction over a parse.**  What holds of no hunks and is kept by every allowed
event holds of the hunks of every patch. -/
theorem performPatch_induction {P : List Hunk → Prop} (hinit : P [])
    (hstep : ∀ p e, Inv p → (phaseOf p).Allows e → P p.state.hunks → P (p.perform e).state.hunks)
    {body : List Text} (h : read .notStarted body = some es) :
    P (performPatch es).state.hunks := by
  have hrun : ∀ (p : StreamingPatchParser), Inv p → P p.state.hunks →
      ∀ (ls : List Text) (es : List LineEvent), (phaseOf p).read ls = some es →
        P (es.foldl performLine p).state.hunks := by
    intro p hp hP ls
    induction ls generalizing p with
    | nil => intro es hes; cases hes; exact hP
    | cons line ls ih =>
      intro es hes
      obtain ⟨e, es', he, hes', rfl⟩ := read_cons_eq_some hes
      obtain ⟨hinv, hphase⟩ := performLine_spec hp he
      rw [← hphase] at hes'
      exact ih _ hinv (hstep p.nextLine e hp (classify_allows he) hP) es' hes'
  exact hrun {} inv_init hinit body es h

end ApplyPatch
