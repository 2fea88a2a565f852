/-
# Streaming and batch parsing of a patch

`StreamingPatchParser` is fed the deltas of a patch as they arrive; `parse_patch`
has the whole text.  Both run the same line machine, but over different lines:

* the streaming reader drops one CR at the end of a line;
* the batch reader splits the text with `str::lines`, which drops one CR, joins
  the lines, and hands the result to the streaming reader, which drops another.

Besides, only the batch reader checks that the first line is the begin marker: the
end marker alone is a patch for `finish`.  The two agree on every text outside these
two cases, however the text is cut (`streaming_agrees_iff`).
-/
import BetterCodex.PatchRuns

open RustStr List

namespace ApplyPatch

open LineEvent

/-! ## The two readers -/

/-- Push the deltas one after the other and finish. -/
def streamPatch (deltas : List Text) : Except ParseError StreamingPatchParser := do
  let p ← deltas.foldlM StreamingPatchParser.pushDelta {}
  p.finish

/-- What a caller sees of a streaming parse: the hunks that `finish` returns and
`environment_id()`, or an error. -/
def streamOutcome (deltas : List Text) : Option (List Hunk × Option Text) :=
  (streamPatch deltas).toOption.map (fun p => (p.state.hunks, p.state.environmentId))

/-- What a caller sees of `parse_patch`. -/
def batchOutcome (text : Text) : Option (List Hunk × Option Text) :=
  (parsePatch text).toOption.map (fun args => (args.hunks, args.environmentId))

/-- The text is a patch in a heredoc wrapper. -/
def isWrapped (text : Text) : Bool := isHeredoc (lines text)

variable (deltas : List Text)

theorem streamPatch_eq_runText : streamPatch deltas = runText deltas.flatten := by
  unfold streamPatch runText
  rw [StreamingPatchParser.foldlM_pushDelta]

/-- The cuts do not matter. -/
theorem streamOutcome_eq :
    streamOutcome deltas
      = (runText deltas.flatten).toOption.map (fun p => (p.state.hunks, p.state.environmentId)) := by
  unfold streamOutcome
  rw [streamPatch_eq_runText]

/-! ## Trimmed texts -/

variable {text : Text}

theorem lines_of_trimmed (htrim : trim text = text) (hne : text ≠ []) :
    lines text = (completeLines text).map stripCr ++ [lastLine text] := by
  unfold lines
  rw [if_neg]
  intro h
  exact trim_lastLine_ne_nil htrim hne (by rw [h]; rfl)

/-- The batch reader checks both ends and runs the line machine. -/
theorem batchOutcome_eq (htrim : trim text = text) (hwrap : isWrapped text = false) :
    batchOutcome text
      = if (lines text).head?.map trim = some beginPatchMarker
          ∧ (lines text).getLast?.map trim = some endPatchMarker then
          (runText (joinLines (lines text))).toOption.map
            (fun p => (p.state.hunks, p.state.environmentId))
        else none := by
  unfold batchOutcome parsePatch parsePatchText ParseMode.checkPatchBoundaries
  dsimp only
  rw [htrim, checkPatchBoundariesLenient_of_not_heredoc hwrap, toOption_bind,
    checkPatchBoundariesStrict_toOption]
  split_ifs
  · rw [Option.bind_some, toOption_bind]
    cases runText (joinLines (lines text)) <;> rfl
  · rfl

/-! ## One more CR -/

/-- The body lines that carry text of the files. -/
def BodyLine.isPayload : BodyLine → Bool
  | .context _ => true
  | .added _ => true
  | .removed _ => true
  | _ => false

/-- The events that carry text of the files: their lines are kept to the letter,
those of all others are trimmed. -/
def LineEvent.isPayload : LineEvent → Bool
  | .fileLine _ => true
  | .body b => b.isPayload
  | _ => false

/-- A payload line with one CR more. -/
def BodyLine.addCr : BodyLine → BodyLine
  | .context line => .context (line ++ ['\r'])
  | .added line => .added (line ++ ['\r'])
  | .removed line => .removed (line ++ ['\r'])
  | b => b

/-- A payload event with one CR more. -/
def LineEvent.addCr : LineEvent → LineEvent
  | .fileLine line => .fileLine (line ++ ['\r'])
  | .body b => .body b.addCr
  | e => e

theorem readData_concat_cr (line : Text) :
    readData (line ++ ['\r']) = if line = [] then none else (readData line).map BodyLine.addCr := by
  rcases line with _ | ⟨c, cs⟩
  · rfl
  · rw [if_neg (by simp), cons_append]
    by_cases h1 : c = ' '
    · subst h1; rfl
    by_cases h2 : c = '+'
    · subst h2; rfl
    by_cases h3 : c = '-'
    · subst h3; rfl
    simp [readData]

variable {line : Text}

theorem isPayload_of_readData {b : BodyLine} (h : readData line = some b) : b.isPayload = true := by
  unfold readData at h
  split at h <;> cases h <;> rfl

/-- What one more CR does to an event that was read from `line`. -/
def BodyLine.withCr (line : Text) (b : BodyLine) : Option BodyLine :=
  if b.isPayload then (if line = [] then none else some b.addCr) else some b

theorem readBody_concat_cr (moved : Bool) (chunk : ChunkPhase) (line : Text) :
    readBody moved chunk (line ++ ['\r']) = (readBody moved chunk line).bind (·.withCr line) := by
  have hdata : readData (line ++ ['\r']) = (readData line).bind (·.withCr line) := by
    rw [readData_concat_cr]
    cases hr : readData line with
    | none => simp
    | some b => simp [BodyLine.withCr, isPayload_of_readData hr]
  unfold readBody
  rw [trimEnd_concat_whitespace line (by decide : isWhitespace '\r' = true)]
  dsimp only
  split_ifs
  all_goals
    cases stripPrefix moveToMarker (trimEnd line) <;>
      cases stripPrefix changeContextMarker (trimEnd line) <;>
      first
      | rfl
      | exact hdata

/-- What one more CR does to an event that was read from `line`: nothing to the
trimmed ones, and payload keeps it; but a bare empty line is no line of an update
hunk any more. -/
def LineEvent.withCr (line : Text) (e : LineEvent) : Option LineEvent :=
  if e.isPayload then (if line = [] then none else some e.addCr) else some e

/-- How a CR at its end changes the event of a line. -/
theorem classify_concat_cr (phase : Phase) (line : Text) :
    classify phase (line ++ ['\r']) = (classify phase line).bind (·.withCr line) := by
  have hcr : isWhitespace '\r' = true := by decide
  have hheader : ∀ t, ((readHeader t).map header)
      = ((readHeader t).map header).bind (·.withCr line) := by
    intro t
    cases readHeader t <;> rfl
  cases phase with
  | notStarted =>
    simp only [classify, trim_concat_whitespace _ hcr]
    split_ifs <;> rfl
  | preamble hasEnvironmentId =>
    simp only [classify, trim_concat_whitespace _ hcr]
    cases stripPrefix environmentIdMarker (trim line) with
    | none => exact hheader _
    | some environmentId => dsimp only; split_ifs <;> rfl
  | addFile =>
    simp only [classify, trim_concat_whitespace _ hcr]
    cases readHeader (trim line) with
    | some h => rfl
    | none =>
      rcases line with _ | ⟨c, cs⟩
      · rfl
      · by_cases hc : c = '+'
        · subst hc; rfl
        · simp [hc]
  | deleteFile =>
    simp only [classify, trim_concat_whitespace _ hcr]
    exact hheader _
  | updateFile moved chunk =>
    simp only [classify, trimEnd_concat_whitespace _ hcr]
    cases readHeader (trimEnd line) with
    | some h => dsimp only; split_ifs <;> rfl
    | none =>
      rw [readBody_concat_cr]
      cases readBody moved chunk line with
      | none => rfl
      | some b =>
        cases hb : b.isPayload <;> by_cases hl : line = [] <;>
          simp [BodyLine.withCr, withCr, isPayload, addCr, hb, hl]
  | ended =>
    simp only [classify, trim_concat_whitespace _ hcr]
    split_ifs <;> rfl

theorem after_addCr (phase : Phase) (e : LineEvent) : phase.after e.addCr = phase.after e := by
  cases e with
  | body b => cases b <;> cases phase <;> rfl
  | _ => cases phase <;> rfl

/-! ## Payload weights

The hunks of two runs are told apart by the amount of text in them. -/

/-- The characters an event adds to the hunks. -/
def LineEvent.weight : LineEvent → ℕ
  | .fileLine line => line.length + 1
  | .body (.context line) => line.length + line.length
  | .body (.added line) => line.length
  | .body (.removed line) => line.length
  | _ => 0

/-- The characters in a list of lines. -/
def linesWeight (ls : List Text) : ℕ := (ls.map List.length).sum

/-- The characters in a chunk. -/
def UpdateFileChunk.weight (c : UpdateFileChunk) : ℕ := linesWeight c.oldLines + linesWeight c.newLines

/-- The characters in a list of chunks. -/
def chunksWeight (chunks : List UpdateFileChunk) : ℕ := (chunks.map UpdateFileChunk.weight).sum

/-- The characters in a hunk. -/
def Hunk.weight : Hunk → ℕ
  | .addFile _ contents => contents.length
  | .deleteFile _ => 0
  | .updateFile _ _ chunks => chunksWeight chunks

/-- The characters in a list of hunks. -/
def hunksWeight (hunks : List Hunk) : ℕ := (hunks.map Hunk.weight).sum

@[simp] theorem linesWeight_concat (ls : List Text) (l : Text) :
    linesWeight (ls ++ [l]) = linesWeight ls + l.length := by
  simp [linesWeight]

variable (cs : List UpdateFileChunk)

@[simp] theorem chunksWeight_concat (c : UpdateFileChunk) :
    chunksWeight (cs ++ [c]) = chunksWeight cs + c.weight := by
  simp [chunksWeight]

@[simp] theorem hunksWeight_concat (hs : List Hunk) (h : Hunk) :
    hunksWeight (hs ++ [h]) = hunksWeight hs + h.weight := by
  simp [hunksWeight]

theorem chunksWeight_dropLast :
    chunksWeight cs = chunksWeight cs.dropLast + (cs.getLast?.getD {}).weight := by
  cases h : cs.getLast? with
  | none => rw [getLast?_eq_none_iff.mp h]; rfl
  | some c =>
    conv_lhs => rw [← dropLast_append_getLast? c h]
    simp

theorem hunksWeight_of_getLast {hs : List Hunk} {h : Hunk} (hl : hs.getLast? = some h) :
    hunksWeight hs = hunksWeight hs.dropLast + h.weight := by
  conv_lhs => rw [← dropLast_append_getLast? h hl]
  simp

theorem chunksWeight_onLastChunk {f : UpdateFileChunk → UpdateFileChunk} {n : ℕ}
    (hf : ∀ c, (f c).weight = c.weight + n) (cs : List UpdateFileChunk) :
    chunksWeight (onLastChunk f cs) = chunksWeight cs + n := by
  rw [onLastChunk_eq_concat, chunksWeight_concat, hf, chunksWeight_dropLast cs]
  omega

/-- A line of an update adds its length to the weight of the chunks. -/
theorem BodyLine.chunksWeight_perform (movePath : Option Text) (cs : List UpdateFileChunk)
    (b : BodyLine) :
    chunksWeight (b.perform movePath cs).2 = chunksWeight cs + (body b).weight := by
  cases b with
  | skip => rfl
  | moveTo path => rfl
  | openChunk changeContext => simp [BodyLine.perform, UpdateFileChunk.weight, linesWeight]; rfl
  | endOfFile =>
    simp only [BodyLine.perform, markEndOfFile]
    cases h : cs.getLast? with
    | none => rfl
    | some c =>
      rw [chunksWeight_dropLast cs, h, chunksWeight_concat]
      rfl
  | context line =>
    simp only [BodyLine.perform, weight]
    refine chunksWeight_onLastChunk ?_ cs
    simp only [UpdateFileChunk.weight, UpdateFileChunk.pushContextLine, linesWeight_concat]
    omega
  | added line =>
    simp only [BodyLine.perform, weight]
    refine chunksWeight_onLastChunk ?_ cs
    simp only [UpdateFileChunk.weight, UpdateFileChunk.pushNewLine, linesWeight_concat]
    omega
  | removed line =>
    simp only [BodyLine.perform, weight]
    refine chunksWeight_onLastChunk ?_ cs
    simp only [UpdateFileChunk.weight, UpdateFileChunk.pushOldLine, linesWeight_concat]
    omega

namespace StreamingPatchParser

theorem hunksWeight_enter (p : StreamingPatchParser) (h : Header) :
    hunksWeight (p.enter h).state.hunks = hunksWeight p.state.hunks := by
  cases h <;> simp [enter, pushHunk, setMode, Hunk.weight, chunksWeight]

/-- An event adds its weight to that of the hunks. -/
theorem hunksWeight_perform {p : StreamingPatchParser} (hp : Inv p) {e : LineEvent}
    (he : (phaseOf p).Allows e) :
    hunksWeight (p.perform e).state.hunks = hunksWeight p.state.hunks + e.weight := by
  cases e with
  | begin => rfl
  | environment environmentId => rfl
  | blank => rfl
  | header h => exact hunksWeight_enter p h
  | fileLine line =>
    obtain ⟨path, contents, hlast⟩ := getLast_of_allows_fileLine hp he
    rw [hunksWeight_of_getLast hlast]
    simp only [perform, hlast, setLastHunk, hunksWeight_concat, Hunk.weight, weight,
      length_append, length_singleton]
    omega
  | body b =>
    obtain ⟨path, movePath, chunks, hlast, -, -⟩ := getLast_of_allows_body hp he
    rw [hunksWeight_of_getLast hlast]
    simp only [perform, hlast, setLastHunk, hunksWeight_concat, Hunk.weight,
      BodyLine.chunksWeight_perform]
    omega

/-- The hunks of a run weigh what its events weigh. -/
theorem hunksWeight_foldl {p : StreamingPatchParser} (hp : Inv p) {ls : List Text}
    {es : List LineEvent} (h : (phaseOf p).read ls = some es) :
    hunksWeight (es.foldl performLine p).state.hunks
      = hunksWeight p.state.hunks + (es.map weight).sum := by
  induction ls generalizing p es with
  | nil => cases h; rfl
  | cons line ls ih =>
    obtain ⟨e, es', he, hes, rfl⟩ := Phase.read_cons_eq_some h
    obtain ⟨hinv, hphase⟩ := performLine_spec hp he
    have hstep : hunksWeight (p.performLine e).state.hunks
        = hunksWeight p.state.hunks + e.weight :=
      hunksWeight_perform (inv_nextLine hp) (classify_allows he)
    rw [← hphase] at hes
    rw [foldl_cons, ih hinv hes, hstep, map_cons, sum_cons]
    omega

end StreamingPatchParser

theorem hunksWeight_performPatch {ls : List Text} {es : List LineEvent}
    (h : Phase.read .notStarted ls = some es) :
    hunksWeight (performPatch es).state.hunks = (es.map weight).sum := by
  unfold performPatch
  rw [StreamingPatchParser.hunksWeight_enter]
  have hw := StreamingPatchParser.hunksWeight_foldl StreamingPatchParser.inv_init h
  rw [show hunksWeight ({} : StreamingPatchParser).state.hunks = 0 from rfl, Nat.zero_add] at hw
  exact hw

/-! ## The two runs in lockstep -/

/-- A line that both readers take a CR from. -/
def endsInTwoCrs (line : Text) : Bool := endsWith line ['\r', '\r']

/-- Some payload line of the run ends in two CRs. -/
def hasDoubledPayload (raw : List Text) (es : List LineEvent) : Bool :=
  (raw.zip es).any (fun x => endsInTwoCrs x.1 && x.2.isPayload)

theorem stripCr_of_endsInTwoCrs (h : endsInTwoCrs line = true) :
    stripCr line = stripCr (stripCr line) ++ ['\r'] := by
  obtain ⟨t, rfl⟩ := isSuffixOf_iff_suffix.mp h
  have hstrip : stripCr (t ++ ['\r', '\r']) = t ++ ['\r'] := by
    rw [← stripCr_concat_cr (t ++ ['\r'])]
    simp
  rw [hstrip, stripCr_concat_cr]

theorem stripCr_of_not_endsInTwoCrs (h : endsInTwoCrs line = false) :
    stripCr (stripCr line) = stripCr line := by
  rcases stripCr_cases line with h1 | h1
  · exact congrArg stripCr h1
  · rcases stripCr_cases (stripCr line) with h2 | h2
    · exact h2
    · have htwo : endsInTwoCrs line = true := by
        refine isSuffixOf_iff_suffix.mpr ⟨stripCr (stripCr line), ?_⟩
        conv_rhs => rw [h1, h2]
        simp
      rw [h] at htwo
      cases htwo

/-- One line of the two runs: the streaming reader reads what the batch reader
reads, with the CR that the batch reader drops besides. -/
theorem classify_stripCr (phase : Phase) (line : Text) :
    classify phase (stripCr line)
      = (classify phase (stripCr (stripCr line))).bind
          (fun e => if endsInTwoCrs line then e.withCr (stripCr (stripCr line)) else some e) := by
  cases h : endsInTwoCrs line with
  | false => simp [stripCr_of_not_endsInTwoCrs h]
  | true =>
    conv_lhs => rw [stripCr_of_endsInTwoCrs h]
    rw [classify_concat_cr]
    simp

theorem weight_lt_weight_addCr {e : LineEvent} (h : e.isPayload = true) :
    e.weight < e.addCr.weight := by
  cases e with
  | fileLine line => simp [addCr, weight]
  | body b =>
    cases b <;> simp_all [isPayload, BodyLine.isPayload, addCr,
      BodyLine.addCr, weight]
    omega
  | _ => simp [isPayload] at h

variable {phase : Phase}

theorem classify_batch_of_stream {e' : LineEvent} (h : classify phase (stripCr line) = some e') :
    ∃ e, classify phase (stripCr (stripCr line)) = some e
      ∧ e' = if endsInTwoCrs line && e.isPayload then e.addCr else e := by
  rw [classify_stripCr] at h
  obtain ⟨e, he, h⟩ := Option.bind_eq_some_iff.mp h
  refine ⟨e, he, ?_⟩
  unfold withCr at h
  cases hd : endsInTwoCrs line <;> cases hpay : e.isPayload <;> simp_all

/-- Without a doubled CR the batch reader's events are the streaming reader's. -/
theorem classify_stream_of_batch {e : LineEvent}
    (h : classify phase (stripCr (stripCr line)) = some e)
    (hd : (endsInTwoCrs line && e.isPayload) = false) : classify phase (stripCr line) = some e := by
  rw [classify_stripCr, h]
  unfold withCr
  cases hd' : endsInTwoCrs line <;> cases hpay : e.isPayload <;> simp_all

/-- **Streaming runs are batch runs**, with at least as much text in the hunks, and
more when a payload line ends in two CRs. -/
theorem read_batch_of_stream {raw : List Text} {es' : List LineEvent}
    (h : phase.read (raw.map stripCr) = some es') :
    ∃ es, phase.read (raw.map (stripCr ∘ stripCr)) = some es
      ∧ phase.afterAll es' = phase.afterAll es
      ∧ (es.map weight).sum + (hasDoubledPayload raw es).toNat
          ≤ (es'.map weight).sum := by
  induction raw generalizing phase es' with
  | nil => cases h; exact ⟨[], rfl, rfl, le_rfl⟩
  | cons line raw ih =>
    obtain ⟨e', es'', he', hes, rfl⟩ := Phase.read_cons_eq_some h
    obtain ⟨e, he, heq⟩ := classify_batch_of_stream he'
    have hafter : phase.after e' = phase.after e := by
      rw [heq]
      split_ifs
      · exact after_addCr phase e
      · rfl
    rw [hafter] at hes
    obtain ⟨es, hread, hall, hweight⟩ := ih hes
    refine ⟨e :: es, ?_, ?_, ?_⟩
    · simp [Phase.read, he, hread]
    · rw [Phase.afterAll_cons, Phase.afterAll_cons, hafter, hall]
    · have hcons : hasDoubledPayload (line :: raw) (e :: es)
          = ((endsInTwoCrs line && e.isPayload) || hasDoubledPayload raw es) := rfl
      rw [hcons, map_cons, sum_cons, map_cons, sum_cons, heq]
      cases hd : (endsInTwoCrs line && e.isPayload) with
      | false =>
        rw [Bool.false_or, if_neg (by simp)]
        omega
      | true =>
        have hlt := weight_lt_weight_addCr (Bool.and_eq_true_iff.mp hd).2
        rw [Bool.true_or, if_pos rfl, Bool.toNat_true]
        omega

/-- **Batch runs without a doubled CR are streaming runs.** -/
theorem read_stream_of_batch {raw : List Text} {es : List LineEvent}
    (h : phase.read (raw.map (stripCr ∘ stripCr)) = some es)
    (hd : hasDoubledPayload raw es = false) : phase.read (raw.map stripCr) = some es := by
  induction raw generalizing phase es with
  | nil => exact h
  | cons line raw ih =>
    obtain ⟨e, es', he, hes, rfl⟩ := Phase.read_cons_eq_some h
    have hcons : hasDoubledPayload (line :: raw) (e :: es')
        = ((endsInTwoCrs line && e.isPayload) || hasDoubledPayload raw es') := rfl
    rw [hcons, Bool.or_eq_false_iff] at hd
    simp [Phase.read, classify_stream_of_batch he hd.1, ih hes hd.2]

/-- The patch of a text, read with every line without its CRs, keeps a line that
ends in two of them as payload. -/
def keepsDoubledCr (text : Text) : Bool :=
  match readPatch ((completeLines text).map (stripCr ∘ stripCr)) (lastLine text) with
  | some es => hasDoubledPayload (completeLines text) es
  | none => false

/-- What the caller sees of the parser that performed the events of a patch. -/
def eventsOutcome (es : List LineEvent) : List Hunk × Option Text :=
  ((performPatch es).state.hunks, (performPatch es).state.environmentId)

/-- The two readings of one body agree exactly when no doubled CR is kept. -/
theorem readPatch_outcome_iff (raw : List Text) (last : Text) :
    (readPatch (raw.map stripCr) last).map eventsOutcome
        = (readPatch (raw.map (stripCr ∘ stripCr)) last).map eventsOutcome
      ↔ ∀ es, readPatch (raw.map (stripCr ∘ stripCr)) last = some es →
          hasDoubledPayload raw es = false := by
  constructor
  · intro heq es hes
    rw [hes, Option.map_some] at heq
    obtain ⟨es', hes', hout⟩ := Option.map_eq_some_iff.mp heq
    obtain ⟨-, hread', -⟩ := readPatch_eq_some.mp hes'
    obtain ⟨-, hread, -⟩ := readPatch_eq_some.mp hes
    obtain ⟨es₀, hread₀, -, hweight⟩ := read_batch_of_stream hread'
    obtain rfl : es = es₀ := Option.some.inj (hread.symm.trans hread₀)
    have hhunks : (performPatch es').state.hunks = (performPatch es).state.hunks :=
      congrArg Prod.fst hout
    have hsum := hunksWeight_performPatch hread
    rw [← hhunks, hunksWeight_performPatch hread'] at hsum
    cases hd : hasDoubledPayload raw es with
    | false => rfl
    | true => rw [hd, Bool.toNat_true] at hweight; omega
  · intro hnone
    cases hes : readPatch (raw.map (stripCr ∘ stripCr)) last with
    | some es =>
      obtain ⟨hend, hread, hcl⟩ := readPatch_eq_some.mp hes
      have hstream := read_stream_of_batch hread (hnone es hes)
      rw [readPatch_eq_some.mpr ⟨hend, hstream, hcl⟩]
    | none =>
      cases hes' : readPatch (raw.map stripCr) last with
      | none => rfl
      | some es' =>
        obtain ⟨hend, hread', hcl⟩ := readPatch_eq_some.mp hes'
        obtain ⟨es, hread, hall, -⟩ := read_batch_of_stream hread'
        rw [hall] at hcl
        rw [readPatch_eq_some.mpr ⟨hend, hread, hcl⟩] at hes
        cases hes

/-! ## Agreement -/

theorem streamOutcome_eq_readPatch (h : trim (lastLine deltas.flatten) ≠ []) :
    streamOutcome deltas
      = (readPatch ((completeLines deltas.flatten).map stripCr) (lastLine deltas.flatten)).map
          eventsOutcome := by
  rw [streamOutcome_eq, runText_toOption _ h, Option.map_map]
  rfl

/-- The batch reader drops two CRs of every complete line. -/
theorem batchOutcome_eq_readPatch (htrim : trim text = text) (hne : text ≠ [])
    (hwrap : isWrapped text = false) (hlines : completeLines text ≠ []) :
    batchOutcome text
      = (readPatch ((completeLines text).map (stripCr ∘ stripCr)) (lastLine text)).map
          eventsOutcome := by
  have hlast := trim_lastLine_ne_nil htrim hne
  have hsplit : completeLines (joinLines (lines text)) = (completeLines text).map stripCr
      ∧ lastLine (joinLines (lines text)) = lastLine text := by
    rw [lines_of_trimmed htrim hne]
    refine joinLines_concat ?_ (not_mem_lastLine text)
    intro l hl
    obtain ⟨raw, hraw, rfl⟩ := mem_map.mp hl
    exact fun hmem => not_mem_completeLines hraw ((stripCr_isPrefix raw).subset hmem)
  rw [batchOutcome_eq htrim hwrap, lines_of_trimmed htrim hne, getLast?_concat]
  rw [lines_of_trimmed htrim hne] at hsplit
  obtain ⟨first, rest, hcons⟩ := exists_cons_of_ne_nil hlines
  split_ifs with hcheck
  · rw [runText_toOption _ (by rw [hsplit.2]; exact hlast), hsplit.1, hsplit.2, map_map,
      Option.map_map]
    rfl
  · -- the machine refuses the same first line
    cases hes : readPatch ((completeLines text).map (stripCr ∘ stripCr)) (lastLine text) with
    | none => rfl
    | some es =>
      obtain ⟨hend, hread, -⟩ := readPatch_eq_some.mp hes
      rw [hcons, map_cons] at hread
      obtain ⟨e, es', he, -, -⟩ := Phase.read_cons_eq_some hread
      have hbegin : trim first = beginPatchMarker := by
        simp only [classify, Function.comp, trim_stripCr] at he
        by_contra hfirst
        rw [if_neg hfirst] at he
        cases he
      refine absurd ⟨?_, ?_⟩ hcheck
      · simp [hcons, trim_stripCr, hbegin]
      · simp [hend]

theorem batchOutcome_of_single_line (htrim : trim text = text) (hwrap : isWrapped text = false)
    (hlines : completeLines text = []) : batchOutcome text = none := by
  rw [batchOutcome_eq htrim hwrap, if_neg]
  rintro ⟨hfirst, hlast⟩
  unfold lines at hfirst hlast
  rw [hlines] at hfirst hlast
  by_cases hempty : lastLine text = []
  · simp [hempty] at hfirst
  · simp only [map_nil, hempty, if_false, nil_append, head?_cons, Option.map_some,
      Option.some.injEq, getLast?_singleton] at hfirst hlast
    rw [hfirst] at hlast
    exact absurd hlast (by decide)

/-- **Streaming and batch parsing.**  On a trimmed text outside a heredoc, the two
readers give the same hunks and environment id, or fail together, for every way of
cutting the text into deltas, exactly when the text is not the bare end marker and
no payload line of the patch it spells ends in two CRs. -/
theorem streaming_agrees_iff (text : Text) (htrim : trim text = text)
    (hwrap : isWrapped text = false) :
    (∀ deltas : List Text, deltas.flatten = text → streamOutcome deltas = batchOutcome text)
      ↔ text ≠ endPatchMarker ∧ keepsDoubledCr text = false := by
  have hcuts : (∀ deltas : List Text, deltas.flatten = text →
      streamOutcome deltas = batchOutcome text) ↔ streamOutcome [text] = batchOutcome text := by
    constructor
    · intro h
      exact h [text] (by simp)
    · intro h deltas hflat
      rw [← h, streamOutcome_eq, streamOutcome_eq, hflat, flatten_singleton]
  rw [hcuts]
  by_cases hne : text = []
  · subst hne
    exact ⟨fun _ => ⟨by decide, by decide⟩, fun _ => by decide⟩
  have hlast := trim_lastLine_ne_nil htrim hne
  have hstream := streamOutcome_eq_readPatch [text] (by simpa using hlast)
  rw [flatten_singleton] at hstream
  rw [hstream]
  by_cases hlines : completeLines text = []
  · -- one line: only the bare end marker is accepted, and only by `finish`
    have hcr : keepsDoubledCr text = false := by
      unfold keepsDoubledCr
      rw [hlines]
      split <;> rfl
    rw [batchOutcome_of_single_line htrim hwrap hlines, hlines,
      eq_lastLine_of_completeLines_eq_nil hlines]
    by_cases hend : text = endPatchMarker
    · subst hend
      exact ⟨fun h => absurd h (by decide), fun h => absurd rfl h.1⟩
    · refine ⟨fun _ => ⟨hend, hcr⟩, fun _ => ?_⟩
      simp [readPatch, htrim, hend]
  · rw [batchOutcome_eq_readPatch htrim hne hwrap hlines, readPatch_outcome_iff]
    have hend : text ≠ endPatchMarker := by
      rintro rfl
      exact hlines (by decide)
    unfold keepsDoubledCr
    constructor
    · intro h
      refine ⟨hend, ?_⟩
      split
      · next es hes => exact h es hes
      · rfl
    · rintro ⟨-, h⟩ es hes
      rw [hes] at h
      exact h

/-- A small patch on which the readers agree. -/
def deletePatch : Text := "*** Begin Patch\n*** Delete File: a\n*** End Patch".toList

theorem streaming_agrees_deletePatch :
    batchOutcome deletePatch = some ([.deleteFile "a".toList], none)
      ∧ ∀ deltas : List Text, deltas.flatten = deletePatch →
          streamOutcome deltas = batchOutcome deletePatch :=
  ⟨by decide,
    (streaming_agrees_iff deletePatch (by decide) (by decide)).mpr
      ⟨by decide, by decide⟩⟩

/-- The bare end marker is an empty patch for `finish` and an error for `parse_patch`. -/
theorem streaming_accepts_bare_end_marker :
    trim endPatchMarker = endPatchMarker ∧ isWrapped endPatchMarker = false
      ∧ streamOutcome [endPatchMarker] = some ([], none)
      ∧ batchOutcome endPatchMarker = none := by
  decide

/-- A doubled CR: the streaming reader keeps one, the batch reader none. -/
example :
    let text := "*** Begin Patch\n*** Add File: a\n+x\r\r\n*** End Patch".toList
    streamOutcome [text] = some ([.addFile "a".toList "x\r\n".toList], none)
      ∧ batchOutcome text = some ([.addFile "a".toList "x\n".toList], none) := by
  decide

end ApplyPatch
