/-
# Thread rollback in the two directions of a reconstruction

A rollback marker takes back the newest turns.  The reverse scan of a reconstruction
skips as many turns as the markers ask for; the forward replay drops as many user
messages, and a turn holds several of them if the user steers it while it runs.
-/
import BetterCodex.RolloutReconstruction
import BetterCodex.RollbackLog

namespace Rollout

open RustStr History RollbackLog List ContextManager

variable {Opaque N : Type}

/-! ## User messages in a history -/

/-- The user messages of a history. -/
def userMessages (recog : Recognizers Opaque) (items : List (Envelope Opaque)) :
    List (Envelope Opaque) :=
  items.filter fun e => isUserTurnBoundary recog e.item

/-- Instructions from other agents, which stand as assistant messages. -/
def isInstruction (recog : Recognizers Opaque) : ResponseItem Opaque → Bool
  | .message _ role content _ _ => role == "assistant".toList && recog.isInterAgentInstruction content
  | _ => false

/-- The history holds no instructions from other agents. -/
def NoInstructions (recog : Recognizers Opaque) (items : List (Envelope Opaque)) : Prop :=
  ∀ e ∈ items, isInstruction recog e.item = false

theorem userMessages_cons (recog : Recognizers Opaque) (e : Envelope Opaque)
    (items : List (Envelope Opaque)) :
    userMessages recog (e :: items) = if isUserTurnBoundary recog e.item then
      e :: userMessages recog items else userMessages recog items :=
  filter_cons

section
variable {srv : Services Opaque}

theorem isApiMessage_of_boundary {recog : Recognizers Opaque} {e : Envelope Opaque}
    (h : isUserTurnBoundary recog e.item = true) : e.item.isApiMessage e.metadata = true := by
  obtain ⟨item, metadata⟩ := e
  cases item with
  | message id role content passthrough rest =>
    simp only [isUserTurnBoundary, Bool.or_eq_true, Bool.and_eq_true, beq_iff_eq] at h
    rcases h with ⟨⟨rfl, -⟩, -⟩ | ⟨rfl, -⟩ <;> rfl
  | agentMessage => rfl
  | _ => cases h

variable (srv) in
theorem processed_boundary (recog : Recognizers Opaque) (e : Envelope Opaque) :
    isUserTurnBoundary recog (processed srv e).item = isUserTurnBoundary recog e.item ∧
      isInstruction recog (processed srv e).item = isInstruction recog e.item ∧
      (isUserTurnBoundary recog e.item = true → processed srv e = e) := by
  obtain ⟨item, metadata⟩ := e
  cases item with
  | functionCallOutput | customToolCallOutput => exact ⟨rfl, rfl, nofun⟩
  | _ => exact ⟨rfl, rfl, fun _ => rfl⟩

variable {Ctx World : Type} (m : ContextManager Opaque Ctx World)

theorem recordItem_items (e : Envelope Opaque) :
    (m.recordItem srv e).items = if e.item.isApiMessage e.metadata then
      m.items ++ [processed srv e] else m.items := by
  rw [recordItem]
  by_cases h : e.item.isApiMessage e.metadata
  · rw [if_pos h, if_pos h]
  · rw [if_neg h, if_neg h]

theorem userMessages_recordItem (e : Envelope Opaque) :
    userMessages srv.recognizers (m.recordItem srv e).items =
      userMessages srv.recognizers m.items ++ userMessages srv.recognizers [e] := by
  obtain ⟨hboundary, -, hsame⟩ := processed_boundary srv srv.recognizers e
  rw [recordItem_items]
  cases he : isUserTurnBoundary srv.recognizers e.item with
  | true =>
    rw [if_pos (isApiMessage_of_boundary he), hsame he]
    simp [userMessages]
  | false =>
    split_ifs
    · simp [userMessages, hboundary, he]
    · simp [userMessages, he]

theorem noInstructions_recordItem {recog : Recognizers Opaque} {m : ContextManager Opaque Ctx World}
    (h : NoInstructions recog m.items) {e : Envelope Opaque}
    (he : isInstruction recog e.item = false) :
    NoInstructions recog (m.recordItem srv e).items := by
  obtain ⟨-, hinstruction, -⟩ := processed_boundary srv recog e
  rw [recordItem_items]
  split_ifs
  · intro e' he'
    rcases mem_append.1 he' with he' | he'
    · exact h e' he'
    · rw [mem_singleton.1 he', hinstruction, he]
  · exact h

end

/-! ## Dropping the last user turns -/

/-- What stands before the `k`-th position of a property holds `k` of its items. -/
theorem filter_take_position {α : Type} (p : α → Bool) (l : List α) {n k i : ℕ}
    (h : (((l.zipIdx n).filter fun e => p e.1).map (·.2))[k]? = some i) :
    n ≤ i ∧ (l.take (i - n)).filter p = (l.filter p).take k := by
  induction l generalizing n k with
  | nil => simp at h
  | cons a l ih =>
    rw [zipIdx_cons] at h
    cases ha : p a with
    | true =>
      rw [filter_cons_of_pos (by simpa using ha), map_cons] at h
      cases k with
      | zero =>
        obtain rfl := Option.some.inj h
        simp
      | succ k =>
        obtain ⟨hle, hfilter⟩ := ih h
        refine ⟨by omega, ?_⟩
        rw [show i - n = (i - (n + 1)) + 1 by omega, take_succ_cons,
          filter_cons_of_pos ha, filter_cons_of_pos ha, take_succ_cons, hfilter]
    | false =>
      rw [filter_cons_of_neg (by simpa using ha)] at h
      obtain ⟨hle, hfilter⟩ := ih h
      refine ⟨by omega, ?_⟩
      rw [show i - n = (i - (n + 1)) + 1 by omega, take_succ_cons,
        filter_cons_of_neg (by simp [ha]), filter_cons_of_neg (by simp [ha]), hfilter]

theorem length_positions {α : Type} (p : α → Bool) (l : List α) (n : ℕ) :
    (((l.zipIdx n).filter fun e => p e.1).map (·.2)).length = (l.filter p).length := by
  induction l generalizing n with
  | nil => rfl
  | cons a l ih =>
    rw [zipIdx_cons]
    cases ha : p a with
    | true => simpa [ha] using ih (n + 1)
    | false => simpa [ha] using ih (n + 1)

/-- The context updates before a turn are no user messages. -/
theorem userMessages_trim {Ctx : Type} (recog : Recognizers Opaque)
    (snapshot : List (Envelope Opaque)) (first cut : ℕ) (reference : Option Ctx) :
    userMessages recog (snapshot.take
        (trimPreTurnContextUpdates recog snapshot first cut reference).1) =
      userMessages recog (snapshot.take cut) := by
  induction cut generalizing reference with
  | zero => rfl
  | succ cut ih =>
    have hskip : ∀ e, snapshot[cut]? = some e → isUserTurnBoundary recog e.item = false →
        userMessages recog (snapshot.take (cut + 1)) = userMessages recog (snapshot.take cut) := by
      intro e he hno
      rw [take_add_one, he, Option.toList_some, userMessages, filter_append, userMessages]
      simp [hno]
    rw [trimPreTurnContextUpdates]
    by_cases hfirst : first < cut + 1
    · rw [if_pos hfirst]
      split
      · rename_i id role content passthrough rest metadata hget
        by_cases hdeveloper : role = "developer".toList
        · rw [if_pos hdeveloper]
          dsimp only
          split_ifs
          · rfl
          all_goals
            rw [ih, hskip _ hget]
            rw [hdeveloper]
            rfl
        · rw [if_neg hdeveloper]
          split_ifs with hcontextual
          · rw [ih, hskip _ hget]
            simp [isUserTurnBoundary, hcontextual]
          · rfl
      · rfl
    · rw [if_neg hfirst]

variable {recog : Recognizers Opaque} {e : Envelope Opaque}

/-- A user message is no assistant message, unless it is an instruction. -/
theorem isBefore_of_boundary (h : isUserTurnBoundary recog e.item = true)
    (hplain : isInstruction recog e.item = false) (boundary : Option ℕ) :
    isBefore boundary e = true := by
  obtain ⟨item, metadata⟩ := e
  cases item with
  | message id role content passthrough rest =>
    simp only [isUserTurnBoundary, isInstruction] at h hplain
    rw [hplain, Bool.or_false, Bool.and_eq_true, Bool.and_eq_true, beq_iff_eq] at h
    obtain rfl := h.1.1
    cases boundary <;> rfl
  | agentMessage => cases boundary <;> rfl
  | _ => cases h

theorem userMessages_filter_isBefore {items : List (Envelope Opaque)}
    (h : NoInstructions recog items) (boundary : Option ℕ) :
    userMessages recog (items.filter (isBefore boundary)) =
      userMessages recog items := by
  rw [userMessages, filter_filter, userMessages]
  refine filter_congr fun e he => ?_
  cases hboundary : isUserTurnBoundary recog e.item with
  | true => rw [isBefore_of_boundary hboundary (h e he), Bool.and_true]
  | false => rw [Bool.false_and]

open Option

/-- Only items that are no user messages change. -/
theorem withoutModelText_eq_some {turnId : Text} {e' : Envelope Opaque}
    (h : withoutModelText recog turnId e = some e') :
    e' = e ∨ isUserTurnBoundary recog e.item = false ∧ isUserTurnBoundary recog e'.item = false ∧
      isInstruction recog e'.item = false := by
  obtain ⟨item, metadata⟩ := e
  cases item with
  | message id role content passthrough rest =>
    rw [withoutModelText] at h
    dsimp only at h
    split_ifs at h with hdeveloper hempty
    · obtain rfl := some.inj h
      obtain rfl := hdeveloper.2
      exact Or.inr ⟨rfl, rfl, rfl⟩
    · exact Or.inl (some.inj h).symm
  | _ => exact Or.inl (some.inj h).symm

theorem withoutModelText_of_boundary (h : isUserTurnBoundary recog e.item = true) (turnId : Text) :
    withoutModelText recog turnId e = some e := by
  obtain ⟨item, metadata⟩ := e
  cases item with
  | message id role content passthrough rest =>
    rw [withoutModelText]
    refine if_neg fun hdeveloper => ?_
    obtain rfl := hdeveloper.2
    cases h
  | agentMessage => rfl
  | _ => cases h

/-- Dropping model text leaves the user messages. -/
theorem userMessages_filterMap_withoutModelText (recog : Recognizers Opaque) (turnId : Text)
    (items : List (Envelope Opaque)) :
    userMessages recog (items.filterMap (withoutModelText recog turnId)) =
      userMessages recog items := by
  induction items with
  | nil => rfl
  | cons e items ih =>
    cases hboundary : isUserTurnBoundary recog e.item with
    | true =>
      rw [filterMap_cons_some (withoutModelText_of_boundary hboundary turnId),
        userMessages_cons, userMessages_cons, ih]
    | false =>
      rw [userMessages_cons, hboundary, if_neg Bool.false_ne_true]
      cases he : withoutModelText recog turnId e with
      | none => rw [filterMap_cons_none he, ih]
      | some e' =>
        have he' : isUserTurnBoundary recog e'.item = false := by
          rcases withoutModelText_eq_some he with rfl | ⟨-, h, -⟩
          · exact hboundary
          · exact h
        rw [filterMap_cons_some he, userMessages_cons, he', if_neg Bool.false_ne_true, ih]

/-- What a rollback filters out of the items it keeps are no user messages. -/
theorem retained_userMessages {items : List (Envelope Opaque)} (h : NoInstructions recog items)
    (source : Option ℕ) (turnId : Option Text) (atFirst : Prop) [Decidable atFirst] :
    let before := items.filter (isBefore source)
    let retained := match turnId with
      | some turnId =>
        if atFirst then before.filterMap (withoutModelText recog turnId) else before
      | none => before
    userMessages recog retained = userMessages recog items ∧ NoInstructions recog retained := by
  intro before retained
  have hbefore : userMessages recog before = userMessages recog items :=
    userMessages_filter_isBefore h source
  have hplain : NoInstructions recog before := fun e he => h e (mem_of_mem_filter he)
  cases turnId with
  | none => exact ⟨hbefore, hplain⟩
  | some turnId =>
    by_cases hfirst : atFirst
    · simp only [retained, if_pos hfirst]
      refine ⟨(userMessages_filterMap_withoutModelText recog turnId before).trans hbefore, ?_⟩
      intro e he
      obtain ⟨e₀, he₀, hsome⟩ := mem_filterMap.1 he
      rcases withoutModelText_eq_some hsome with rfl | ⟨-, -, hno⟩
      · exact hplain e he₀
      · exact hno
    · simp only [retained, if_neg hfirst]
      exact ⟨hbefore, hplain⟩

/-- **What a rollback leaves in a history.**  The last `n` user messages are gone, and the
others are still there. -/
theorem userMessages_dropLastNUserTurns {Ctx World : Type} (srv : Services Opaque)
    {m : ContextManager Opaque Ctx World} (h : NoInstructions srv.recognizers m.items) (n : ℕ) :
    userMessages srv.recognizers (m.dropLastNUserTurns srv n).items =
        (userMessages srv.recognizers m.items).rdrop n ∧
      NoInstructions srv.recognizers (m.dropLastNUserTurns srv n).items := by
  rw [dropLastNUserTurns]
  by_cases hn : n = 0
  · rw [if_pos hn, hn, rdrop_zero]
    exact ⟨rfl, h⟩
  rw [if_neg hn]
  have hlength := length_positions (fun e : Envelope Opaque =>
    isUserTurnBoundary srv.recognizers e.item) m.items 0
  have hposition : ∀ {k i}, (userMessagePositions srv.recognizers m.items)[k]? =
      some i → userMessages srv.recognizers (m.items.take i) =
        (userMessages srv.recognizers m.items).take k := fun hk =>
    (filter_take_position (fun e : Envelope Opaque =>
      isUserTurnBoundary srv.recognizers e.item) m.items hk).2
  rw [List.rdrop]
  cases hpositions : userMessagePositions srv.recognizers m.items with
  | nil =>
    have hnone : userMessages srv.recognizers m.items = [] := by
      refine eq_nil_of_length_eq_zero (hlength.symm.trans ?_)
      exact congrArg List.length hpositions
    rw [hnone, take_nil]
    exact ⟨hnone, h⟩
  | cons first rest =>
    dsimp only
    rw [hpositions] at hposition
    have htotal : (userMessages srv.recognizers m.items).length = rest.length + 1 :=
      hlength.symm.trans (congrArg List.length hpositions)
    -- the cut is at the first of the messages to drop, or before its context updates
    have hboundary : ∀ boundary, boundary = (if (first :: rest).length ≤ n then first
        else (first :: rest).getD ((first :: rest).length - n) first) →
        userMessages srv.recognizers (m.items.take boundary) =
          (userMessages srv.recognizers m.items).take
            ((userMessages srv.recognizers m.items).length - n) := by
      intro boundary hboundary
      rw [htotal]
      apply hposition
      rw [hboundary]
      split_ifs with hall
      · rw [length_cons] at hall
        rw [show rest.length + 1 - n = 0 by omega]
        rfl
      · rw [length_cons] at hall ⊢
        rw [getD_eq_getElem?_getD]
        cases hget : (first :: rest)[rest.length + 1 - n]? with
        | some i => rfl
        | none =>
          rw [getElem?_eq_none_iff, length_cons] at hget
          omega
    generalize hcut : (if (first :: rest).length ≤ n then first
      else (first :: rest).getD ((first :: rest).length - n) first) = boundary
    have htrim := userMessages_trim srv.recognizers m.items first boundary m.referenceContextItem
    generalize trimPreTurnContextUpdates srv.recognizers m.items first boundary
      m.referenceContextItem = trimmed at htrim ⊢
    obtain ⟨hretained, hplain⟩ := retained_userMessages
      (fun e he => h e (mem_of_mem_take he) : NoInstructions srv.recognizers
        (m.items.take trimmed.1))
      (acceptanceOrder (m.items[boundary]?.bind (·.metadata)))
      (m.items[first]?.bind (·.item.turnId)) (trimmed.1 = first)
    exact ⟨hretained.trans (htrim.trans (hboundary boundary hcut.symm)), hplain⟩

/-! ## Rollouts of turns and rollback markers -/

/-- The items that stand inside a turn, without messages of other agents. -/
def RolloutItem.isInner (recog : Recognizers Opaque) : RolloutItem Opaque N → Bool
  | .responseItem e => !isInstruction recog e.item
  | .turnContext _ | .worldState .. | .userMessage | .sessionMeta _ | .other => true
  | .interAgentCommunication _ | .compacted _ | .turnStarted .. | .turnComplete _ | .turnAborted _
  | .threadRolledBack _ => false

/-- The user message that an item is. -/
def RolloutItem.message? (recog : Recognizers Opaque) :
    RolloutItem Opaque N → Option (Envelope Opaque)
  | .responseItem e => if isUserTurnBoundary recog e.item then some e else none
  | _ => none

/-- A turn between its start and its end, with one or more user messages. -/
structure Turn (recog : Recognizers Opaque) (N : Type) where
  turnId : Text
  attribution : Option (TurnAttribution Opaque) := none
  body : List (RolloutItem Opaque N)
  aborted : Bool := false
  inner : ∀ item ∈ body, item.isInner recog = true
  nonempty : body.filterMap (·.message? recog) ≠ []

variable {recog : Recognizers Opaque}

/-- The user messages of a turn. -/
def Turn.messages (t : Turn recog N) : List (Envelope Opaque) := t.body.filterMap (·.message? recog)

/-- The last item of a turn. -/
def Turn.ending (t : Turn recog N) : RolloutItem Opaque N :=
  if t.aborted then .turnAborted (some t.turnId) else .turnComplete t.turnId

/-- The items of a turn or of a rollback marker. -/
def eventItems : Event (Turn recog N) → List (RolloutItem Opaque N)
  | .push t => .turnStarted t.turnId t.attribution :: (t.body ++ [t.ending])
  | .pop n => [.threadRolledBack n]

/-- The rollout of turns and rollback markers. -/
def rollout (events : List (Event (Turn recog N))) : List (RolloutItem Opaque N) :=
  events.flatMap eventItems

/-! ## Forward by messages -/

section
variable {srv : ReplayServices Opaque}

/-- What the replay of some items does to the user messages of the history. -/
def Appends (srv : ReplayServices Opaque) (items : List (RolloutItem Opaque N))
    (messages : List (Envelope Opaque)) : Prop :=
  ∀ r : Replay Opaque N, NoInstructions srv.recognizers r.history.items →
    userMessages srv.recognizers (items.foldl (replayItem srv) r).history.items =
        userMessages srv.recognizers r.history.items ++ messages ∧
      NoInstructions srv.recognizers (items.foldl (replayItem srv) r).history.items

/-- The replay appends the message of an item, if it is one. -/
theorem appends_inner {item : RolloutItem Opaque N} (h : item.isInner srv.recognizers = true) :
    Appends srv [item] (item.message? srv.recognizers).toList := by
  intro r hplain
  cases item with
  | responseItem e =>
    rw [RolloutItem.isInner, Bool.not_eq_true'] at h
    refine ⟨?_, noInstructions_recordItem hplain h⟩
    rw [RolloutItem.message?, show (if isUserTurnBoundary srv.recognizers e.item then some e
      else none).toList = userMessages srv.recognizers [e] by
        rw [userMessages_cons]; split_ifs <;> rfl]
    exact userMessages_recordItem r.history e
  | turnContext | worldState | userMessage | sessionMeta | other =>
    exact ⟨(append_nil _).symm, hplain⟩
  | _ => cases h

theorem Appends.append {items items' : List (RolloutItem Opaque N)}
    {messages messages' : List (Envelope Opaque)} (h : Appends srv items messages)
    (h' : Appends srv items' messages') : Appends srv (items ++ items') (messages ++ messages') := by
  intro r hplain
  obtain ⟨hfirst, hplain'⟩ := h r hplain
  obtain ⟨hsecond, hplain''⟩ := h' _ hplain'
  rw [foldl_append, hsecond, hfirst, append_assoc]
  exact ⟨rfl, hplain''⟩

theorem appends_body {body : List (RolloutItem Opaque N)}
    (h : ∀ item ∈ body, item.isInner srv.recognizers = true) :
    Appends srv body (body.filterMap (·.message? srv.recognizers)) := by
  induction body with
  | nil => exact fun r hplain => ⟨(append_nil _).symm, hplain⟩
  | cons item body ih =>
    obtain ⟨hitem, hbody⟩ := forall_mem_cons.1 h
    have happend := (appends_inner hitem).append (ih hbody)
    rw [filterMap_cons]
    cases hmessage : item.message? srv.recognizers with
    | none => rwa [hmessage] at happend
    | some e => rwa [hmessage] at happend

theorem appends_turn (t : Turn srv.recognizers N) : Appends srv (eventItems (.push t)) t.messages := by
  intro r hplain
  have hbody := appends_body t.inner r hplain
  have hending : ∀ r : Replay Opaque N, replayItem srv r t.ending = r := by
    intro r
    rw [Turn.ending]
    split_ifs <;> rfl
  rw [eventItems, foldl_cons, foldl_append, foldl_cons, foldl_nil, hending]
  exact hbody

/-- The user messages in the history that the replay builds. -/
def replayedMessages (srv : ReplayServices Opaque) (events : List (Event (Turn srv.recognizers N))) :
    List (Envelope Opaque) :=
  userMessages srv.recognizers ((rollout events).foldl (replayItem srv) {}).history.items

theorem rollout_append (front back : List (Event (Turn recog N))) :
    rollout (front ++ back) = rollout front ++ rollout back :=
  flatMap_append

theorem rollout_singleton (event : Event (Turn recog N)) : rollout [event] = eventItems event :=
  flatMap_singleton ..

variable (events : List (Event (Turn srv.recognizers N)))

theorem noInstructions_replayed :
    NoInstructions srv.recognizers ((rollout events).foldl (replayItem srv) {}).history.items := by
  induction events using List.reverseRecOn with
  | nil => exact fun e he => absurd he not_mem_nil
  | append_singleton events event ih =>
    rw [rollout_append, foldl_append]
    cases event with
    | push t =>
      rw [rollout_singleton]
      exact (appends_turn t _ ih).2
    | pop n => exact (userMessages_dropLastNUserTurns srv.toServices ih n).2

theorem replayedMessages_push (t : Turn srv.recognizers N) :
    replayedMessages srv (events ++ [.push t]) = replayedMessages srv events ++ t.messages := by
  rw [replayedMessages, rollout_append, foldl_append, rollout_singleton]
  exact (appends_turn t _ (noInstructions_replayed events)).1

theorem replayedMessages_pop (n : ℕ) :
    replayedMessages srv (events ++ [.pop n]) = (replayedMessages srv events).rdrop n := by
  rw [replayedMessages, rollout_append, foldl_append]
  exact (userMessages_dropLastNUserTurns srv.toServices (noInstructions_replayed events) n).1

end

/-! ## Backward by turns -/

section
variable {srv : ReplayServices Opaque}

/-- A segment that is scanned from items of one turn with these user messages. -/
structure SegmentOf (turnId : Text) (messages : List (Envelope Opaque)) (segment : Segment Opaque N) :
    Prop where
  turnId_eq : segment.turnId = some turnId
  messages_eq : segment.userMessages = messages
  counts : messages ≠ [] → segment.countsAsUserTurn = true
  checkpoint : segment.historyCheckpoint = none

variable {s : Scan Opaque N} {turnId : Text} {messages : List (Envelope Opaque)}
  {segment : Segment Opaque N}

/-- One item inside a turn only touches the active segment. -/
theorem scanItem_inner {item : RolloutItem Opaque N} (h : item.isInner srv.recognizers = true)
    (checkpointTurnId : Option Text) (suffix : List (RolloutItem Opaque N))
    (hsegment : SegmentOf turnId messages segment) :
    ∃ segment', scanItem srv checkpointTurnId item suffix
        { s with activeSegment := some segment } = { s with activeSegment := some segment' } ∧
      SegmentOf turnId ((item.message? srv.recognizers).toList ++ messages) segment' := by
  cases item with
  | responseItem e =>
    refine ⟨_, rfl, hsegment.turnId_eq, ?_, ?_, hsegment.checkpoint⟩
    · rw [RolloutItem.message?, ← hsegment.messages_eq]
      split_ifs <;> simp_all
    · intro hne
      rw [getD_some, Bool.or_eq_true]
      rw [RolloutItem.message?] at hne
      cases he : isUserTurnBoundary srv.recognizers e.item with
      | true => exact Or.inr rfl
      | false => exact Or.inl (hsegment.counts (by simpa [he] using hne))
  | turnContext ctx =>
    refine ⟨segment.addTurnContext ctx, rfl, ?_⟩
    rw [Segment.addTurnContext]
    have hid : segment.turnId.or ctx.turnId = some turnId := by rw [hsegment.turnId_eq]; rfl
    split_ifs
    · exact ⟨hid, hsegment.messages_eq, hsegment.counts, hsegment.checkpoint⟩
    · exact ⟨hid, hsegment.messages_eq, hsegment.counts, hsegment.checkpoint⟩
  | worldState full state =>
    exact ⟨_, rfl, hsegment.turnId_eq, hsegment.messages_eq, hsegment.counts, hsegment.checkpoint⟩
  | userMessage =>
    exact ⟨_, rfl, hsegment.turnId_eq, hsegment.messages_eq, fun _ => rfl, hsegment.checkpoint⟩
  | sessionMeta | other => exact ⟨segment, rfl, hsegment⟩
  | _ => cases h

/-- The items of a turn add its user messages to the segment. -/
theorem scan_body {body : List (RolloutItem Opaque N)}
    (h : ∀ item ∈ body, item.isInner srv.recognizers = true) (checkpointTurnId : Option Text)
    (hsegment : SegmentOf turnId [] segment) :
    ∃ segment', scan srv checkpointTurnId { s with activeSegment := some segment } body =
        { s with activeSegment := some segment' } ∧
      SegmentOf turnId (body.filterMap (·.message? srv.recognizers)) segment' := by
  induction body with
  | nil => exact ⟨segment, rfl, hsegment⟩
  | cons item body ih =>
    obtain ⟨hitem, hbody⟩ := forall_mem_cons.1 h
    obtain ⟨segment₁, hscan, hsegment₁⟩ := ih hbody
    obtain ⟨segment₂, hscan', hsegment₂⟩ :=
      scanItem_inner hitem checkpointTurnId body (s := s) hsegment₁
    refine ⟨segment₂, by rw [scan, hscan, hscan'], ?_⟩
    rw [filterMap_cons]
    cases hmessage : item.message? srv.recognizers with
    | none => rwa [hmessage] at hsegment₂
    | some e => rwa [hmessage] at hsegment₂

variable (checkpointTurnId : Option Text)

/-- Only a compaction looks at the items behind it. -/
theorem scan_append (s : Scan Opaque N) {front : List (RolloutItem Opaque N)}
    (h : ∀ c, .compacted c ∉ front) (back : List (RolloutItem Opaque N)) :
    scan srv checkpointTurnId s (front ++ back) =
      scan srv checkpointTurnId (scan srv checkpointTurnId s back) front := by
  induction front with
  | nil => rfl
  | cons item front ih =>
    rw [cons_append, scan, scan, ih fun c hc => h c (mem_cons_of_mem _ hc)]
    cases item with
    | compacted c => exact absurd mem_cons_self (h c)
    | _ => rfl

variable {older : List Text}

/-- The last item of a turn opens a segment for it. -/
theorem scanItem_ending (t : Turn recog N) (checkpointTurnId : Option Text)
    (suffix : List (RolloutItem Opaque N)) (hstarted : s.startedTurnIds = t.turnId :: older)
    (hactive : s.activeSegment = none) :
    ∃ segment, scanItem srv checkpointTurnId t.ending suffix s =
        { s with activeSegment := some segment } ∧ SegmentOf t.turnId [] segment := by
  have hcompatible : turnIdsAreCompatible (s.startedTurnIds.head?.or checkpointTurnId)
      (some t.turnId) = true := by
    rw [hstarted]
    exact beq_self_eq_true _
  rw [Turn.ending]
  split_ifs
  · rw [scanItem, if_pos hcompatible, Scan.turnAborted, hactive]
    exact ⟨_, rfl, rfl, rfl, fun h => absurd rfl h, rfl⟩
  · rw [scanItem, if_pos hcompatible, Scan.updateActive, hactive]
    exact ⟨_, rfl, rfl, rfl, fun h => absurd rfl h, rfl⟩

theorem SegmentOf.compatible (h : SegmentOf turnId messages segment) :
    turnIdsAreCompatible segment.turnId (some turnId) = true := by
  rw [h.turnId_eq]
  exact beq_self_eq_true _

theorem attribute_eq (hsegment : SegmentOf turnId messages segment)
    (attribution : Option (TurnAttribution Opaque)) (s : Scan Opaque N) :
    ∃ segment', ({ s with activeSegment := some segment } : Scan Opaque N).attribute turnId
        attribution = { s with activeSegment := some segment' } ∧
      SegmentOf turnId messages segment' := by
  cases attribution with
  | none => exact ⟨segment, rfl, hsegment⟩
  | some a =>
    rw [Scan.attribute]
    split_ifs
    · refine ⟨{ segment with turnAttribution := some a }, ?_, hsegment.turnId_eq,
        hsegment.messages_eq, hsegment.counts, hsegment.checkpoint⟩
      rw [Scan.updateActive]
      simp [hsegment.compatible]
    · exact ⟨segment, rfl, hsegment⟩

theorem takeCheckpointAttribution_segmentOf (hsegment : SegmentOf turnId messages segment)
    (checkpoint : Option (TurnAttribution Opaque)) :
    SegmentOf turnId messages (takeCheckpointAttribution segment checkpoint).1 := by
  rw [takeCheckpointAttribution]
  split_ifs
  · exact ⟨hsegment.turnId_eq, hsegment.messages_eq, hsegment.counts, hsegment.checkpoint⟩
  · exact hsegment

/-- The start of a turn, met last in a reverse scan, ends its segment. -/
theorem turnStarted_eq (hsegment : SegmentOf turnId messages segment)
    (attribution : Option (TurnAttribution Opaque)) (s : Scan Opaque N) :
    ∃ segment' checkpoint, ({ s with activeSegment := some segment } : Scan Opaque N).turnStarted
        turnId attribution = finalizeActiveSegment segment'
          { s with
            startedTurnIds := s.startedTurnIds.tail
            activeSegment := none
            checkpointAttribution := checkpoint } ∧
      SegmentOf turnId messages segment' := by
  obtain ⟨segment₁, hattribute, h₁⟩ := attribute_eq hsegment attribution
    { s with startedTurnIds := s.startedTurnIds.tail }
  have h₂ : SegmentOf turnId messages
      { segment₁ with turnId := segment₁.turnId.or (some turnId) } :=
    ⟨by simp [h₁.turnId_eq], h₁.messages_eq, h₁.counts, h₁.checkpoint⟩
  refine ⟨_, (takeCheckpointAttribution { segment₁ with turnId := segment₁.turnId.or (some turnId) }
    s.checkpointAttribution).2, ?_, takeCheckpointAttribution_segmentOf h₂ s.checkpointAttribution⟩
  rw [Scan.turnStarted, hattribute, Scan.endSegment]
  dsimp only
  rw [if_pos h₁.compatible]

/-- The state of the scan after the items of these events: the turns read backward. -/
structure Scanned (older : List Text) (events : List (Event (Turn recog N))) (s : Scan Opaque N) :
    Prop where
  started : s.startedTurnIds = older
  active : s.activeSegment = none
  checkpoint : s.historyCheckpoint = none
  pending : s.pendingRollbackTurns = (backward events).1
  survivors : s.survivors.map (·.userMessages) = (backward events).2.map (·.messages)
  settings : s.previousTurnSettings =
    s.survivors.foldr (fun segment newer => newer.or segment.previousTurnSettings) none
  reference : s.referenceContextItem =
    s.survivors.foldr (fun segment newer => newer.orElse segment.referenceContextItem) .neverSet

/-- The scan takes one turn. -/
theorem Scanned.turn {events : List (Event (Turn srv.recognizers N))} (t : Turn srv.recognizers N)
    (h : Scanned (t.turnId :: older) events s) (checkpointTurnId : Option Text) :
    Scanned older (.push t :: events) (scan srv checkpointTurnId s (eventItems (.push t))) := by
  obtain ⟨segment₁, hending, h₁⟩ : ∃ segment, scanItem srv checkpointTurnId t.ending [] s =
      { s with activeSegment := some segment } ∧ SegmentOf t.turnId [] segment :=
    scanItem_ending t checkpointTurnId [] h.started h.active
  obtain ⟨segment₂, hbody, h₂⟩ := scan_body t.inner checkpointTurnId (s := s) h₁
  obtain ⟨segment, checkpoint, hstarted, hsegment⟩ := turnStarted_eq h₂ t.attribution s
  have hscan : scan srv checkpointTurnId s (eventItems (.push t)) =
      finalizeActiveSegment segment
        { s with
          startedTurnIds := s.startedTurnIds.tail
          activeSegment := none
          checkpointAttribution := checkpoint } := by
    have hplain : ∀ c, .compacted c ∉ t.body := fun c hc => nomatch t.inner _ hc
    rw [eventItems, scan, scan_append checkpointTurnId s hplain, scan, scan, hending, hbody, scanItem,
      hstarted]
  rw [hscan, finalizeActiveSegment]
  have hcounts := hsegment.counts t.nonempty
  have htail : s.startedTurnIds.tail = older := by rw [h.started]; rfl
  have hpending := h.pending
  have hsurvivors := h.survivors
  rw [hcounts]
  cases hback : backward events with
  | mk pending kept =>
    rw [hback] at hpending hsurvivors
    cases pending with
    | zero =>
      rw [if_neg (by simp [hpending])]
      refine ⟨htail, rfl, ?_, ?_, ?_, ?_, ?_⟩
      · simp [h.checkpoint, hsegment.checkpoint]
      · simp [hpending, backward, hback, keepOrSkip]
      · simp [backward, hback, keepOrSkip, hsurvivors, hsegment.messages_eq, Turn.messages]
      · simp [h.settings]
      · simp [h.reference]
    | succ pending =>
      rw [if_pos (by simp [hpending]), if_pos rfl]
      refine ⟨htail, rfl, h.checkpoint, ?_, ?_, h.settings, h.reference⟩
      · simp [hpending, backward, hback, keepOrSkip]
      · simp [backward, hback, keepOrSkip, hsurvivors]

theorem Scanned.rollback {events : List (Event (Turn srv.recognizers N))} (n : ℕ)
    (h : Scanned older events s) (checkpointTurnId : Option Text) :
    Scanned older (.pop n :: events) (scan srv checkpointTurnId s [.threadRolledBack n]) :=
  ⟨h.started, h.active, h.checkpoint, congrArg (· + n) h.pending, h.survivors, h.settings,
    h.reference⟩

/-- The turns of the events, oldest first. -/
def turnIds (events : List (Event (Turn recog N))) : List Text :=
  events.filterMap fun
    | .push t => some t.turnId
    | .pop _ => none

theorem not_compacted_mem_eventItems (event : Event (Turn recog N)) (c : CompactedItem Opaque) :
    .compacted c ∉ eventItems event := by
  cases event with
  | pop n => simp [eventItems]
  | push t =>
    intro hc
    rcases mem_cons.1 hc with hc | hc
    · cases hc
    rcases mem_append.1 hc with hc | hc
    · exact nomatch t.inner _ hc
    · rw [mem_singleton, Turn.ending] at hc
      split_ifs at hc

/-- The scan reads such a rollout backward by turns. -/
theorem scanned_rollout (events : List (Event (Turn srv.recognizers N)))
    (hstart : Scanned ((turnIds events).reverse ++ older)
      ([] : List (Event (Turn srv.recognizers N))) s) :
    Scanned older events (scan srv checkpointTurnId s (rollout events)) := by
  induction events generalizing older with
  | nil => exact hstart
  | cons event events ih =>
    rw [rollout, flatMap_cons, scan_append checkpointTurnId s (not_compacted_mem_eventItems event)]
    cases event with
    | push t =>
      refine Scanned.turn t (ih ?_) checkpointTurnId
      rwa [turnIds, filterMap_cons, reverse_cons, append_assoc] at hstart
    | pop n => exact Scanned.rollback n (ih hstart) checkpointTurnId

/-- The turns that a rollout starts. -/
theorem startedTurnIds_rollout (events : List (Event (Turn recog N))) :
    startedTurnIds (rollout events) = (turnIds events).reverse := by
  rw [startedTurnIds, filterMap_reverse]
  congr 1
  induction events with
  | nil => rfl
  | cons event events ih =>
    rw [rollout, flatMap_cons, filterMap_append]
    cases event with
    | pop n => exact ih
    | push t =>
      have hbody : t.body.filterMap RolloutItem.startedTurnId? = [] := by
        refine filterMap_eq_nil_iff.2 fun item hitem => ?_
        have hinner := t.inner item hitem
        cases item with
        | turnStarted => cases hinner
        | _ => rfl
      rw [eventItems, filterMap_cons, filterMap_append, hbody]
      rw [Turn.ending]
      split_ifs
      · exact congrArg (t.turnId :: ·) ih
      · exact congrArg (t.turnId :: ·) ih

end

/-! ## The two directions together -/

section
variable (srv : ReplayServices Opaque) (paginated : Bool) (events : List (Event (Turn recog N)))

theorem not_compacted_mem_rollout (c : CompactedItem Opaque) : .compacted c ∉ rollout events := by
  intro hc
  obtain ⟨event, -, hevent⟩ := mem_flatMap.1 hc
  exact not_compacted_mem_eventItems event c hevent

theorem selectInputCompaction_rollout :
    selectInputCompaction (rollout events) paginated = none := by
  rw [selectInputCompaction, filter_eq_none_iff]
  intro checkpoint hcheckpoint
  obtain ⟨front, hsplit⟩ := newestCompaction_eq_some hcheckpoint
  refine absurd ?_ (not_compacted_mem_rollout events checkpoint.compacted)
  rw [hsplit]
  exact mem_append_right _ mem_cons_self

theorem sawLegacyCompaction_foldl {items : List (RolloutItem Opaque N)}
    (h : ∀ c, .compacted c ∉ items) (r : Replay Opaque N) :
    (items.foldl (replayItem srv) r).sawLegacyCompaction = r.sawLegacyCompaction := by
  induction items generalizing r with
  | nil => rfl
  | cons item items ih =>
    rw [foldl_cons, ih fun c hc => h c (mem_cons_of_mem _ hc)]
    cases item with
    | compacted c => exact absurd mem_cons_self (h c)
    | _ => rfl

variable [DecidableEq N]

/-- What a reconstruction finds in a rollout of turns and rollback markers. -/
theorem reconstructed_rollout (events : List (Event (Turn srv.recognizers N))) :
    ∃ s, Scanned [] events s ∧
      (reconstructRollout srv paginated (rollout events)).survivors = s.survivors ∧
      (reconstructRollout srv paginated (rollout events)).previousTurnSettings =
        s.previousTurnSettings ∧
      (reconstructRollout srv paginated (rollout events)).referenceContextItem =
        s.referenceContextItem.latest? ∧
      userMessages srv.recognizers (reconstructRollout srv paginated (rollout events)).history =
        replayedMessages srv events := by
  have hscanned : Scanned [] events
      (scan srv none { startedTurnIds := startedTurnIds (rollout events) } (rollout events)) :=
    scanned_rollout none events
      ⟨by rw [startedTurnIds_rollout, append_nil], rfl, rfl, rfl, rfl, rfl, rfl⟩
  have hfinish : (scan srv none { startedTurnIds := startedTurnIds (rollout events) }
      (rollout events)).finish none false =
        scan srv none { startedTurnIds := startedTurnIds (rollout events) } (rollout events) := by
    rw [Scan.finish, hscanned.active]
  have hlegacy := sawLegacyCompaction_foldl srv (not_compacted_mem_rollout events) {}
  refine ⟨_, hscanned, ?_⟩
  rw [reconstructRollout, selectInputCompaction_rollout]
  dsimp only [map_none, getD_none, bind_none, isSome_none]
  simp only [hfinish, hscanned.checkpoint, or_none, replayHistory, hlegacy,
    Bool.false_eq_true, if_false, true_and]
  rfl

/-- The user messages in the rebuilt history are those of the turns that survive the scan. -/
def SurvivorsAgree (events : List (Event (Turn srv.recognizers N))) : Prop :=
  let r := reconstructRollout srv paginated (rollout events)
  userMessages srv.recognizers r.history = r.survivors.flatMap (·.userMessages)

/-- A marker for `n` turns: the newest `n` surviving turns have `n` user messages, or all
user messages are rolled back. -/
def Aligned (events : List (Event (Turn srv.recognizers N))) (n : ℕ) : Prop :=
  let r := reconstructRollout srv paginated (rollout events)
  ((r.survivors.rtake n).flatMap (·.userMessages)).length =
    min n (r.survivors.flatMap (·.userMessages)).length

/-- Both notions, on the stacks of the two directions. -/
theorem agree_and_aligned (events : List (Event (Turn srv.recognizers N))) :
    (SurvivorsAgree srv paginated events ↔
      replayedMessages srv events = (forward [] events).flatMap (·.messages)) ∧
    ∀ n, (Aligned srv paginated events n ↔
      (((forward [] events).rtake n).flatMap (·.messages)).length =
        min n ((forward [] events).flatMap (·.messages)).length) := by
  obtain ⟨s, hscanned, hsurvivors, -, -, hmessages⟩ := reconstructed_rollout srv paginated events
  have hmap := hscanned.survivors
  rw [← forward_nil_eq] at hmap
  have hflat : s.survivors.flatMap (·.userMessages) =
      (forward [] events).flatMap (·.messages) := by
    rw [flatMap_def, flatMap_def, hmap]
  have hrtake : ∀ n, (s.survivors.rtake n).flatMap (·.userMessages) =
      ((forward [] events).rtake n).flatMap (·.messages) := by
    intro n
    have hlength : s.survivors.length = (forward [] events).length := by
      simpa using congrArg List.length hmap
    rw [flatMap_def, flatMap_def, List.rtake, List.rtake, map_drop, map_drop, hmap, hlength]
  constructor
  · rw [SurvivorsAgree, hmessages, hsurvivors, hflat]
  · intro n
    rw [Aligned, hsurvivors, hrtake, hflat]

/-- **Surviving turns.**  After every initial part of a rollout, the turns that survive the
reverse scan are exactly those whose user messages survive in the rebuilt history, if and
only if every rollback marker takes back as many messages as turns. -/
theorem surviving_turns_agree_iff (events : List (Event (Turn srv.recognizers N))) :
    (∀ front, front <+: events → SurvivorsAgree srv paginated front) ↔
      ∀ front n, front ++ [.pop n] <+: events → Aligned srv paginated front n := by
  have hpop : ∀ (front : List (Event (Turn srv.recognizers N))) (n : ℕ),
      SurvivorsAgree srv paginated front →
      (SurvivorsAgree srv paginated (front ++ [.pop n]) ↔ Aligned srv paginated front n) := by
    intro front n hagree
    rw [(agree_and_aligned srv paginated _).1] at hagree
    rw [(agree_and_aligned srv paginated _).1, (agree_and_aligned srv paginated _).2,
      replayedMessages_pop, hagree, forward_append]
    exact flatMap_rdrop_iff _ _ n
  constructor
  · intro h front n hfront
    have hbefore : front <+: events := (prefix_append front _).trans hfront
    exact (hpop front n (h front hbefore)).1 (h _ hfront)
  · intro h front
    induction front using List.reverseRecOn with
    | nil =>
      intro _
      rw [(agree_and_aligned srv paginated _).1]
      rfl
    | append_singleton front event ih =>
      intro hfront
      have hbefore := ih ((prefix_append front _).trans hfront)
      cases event with
      | pop n => exact (hpop front n hbefore).2 (h front n hfront)
      | push t =>
        rw [(agree_and_aligned srv paginated _).1] at hbefore ⊢
        rw [replayedMessages_push, hbefore, forward_append, forward, forward, flatMap_append,
          flatMap_singleton]

end

/-- A user message. -/
def userText (text : Text) : Envelope Unit :=
  .new (.message none "user".toList [.inputText text] none ())

/-- The turn context of a turn. -/
def turnContextOf (turnId : Text) : TurnContextItem Unit where
  turnId := some turnId
  model := turnId
  cyberAccessProgram := none
  compHash := none
  realtimeActive := none
  rest := ()

/-- A turn with one user message. -/
def plainTurn : Turn plainReplayServices.recognizers ℕ where
  turnId := ['a']
  body := [.turnContext (turnContextOf ['a']), .responseItem (userText ['x'])]
  inner := by decide
  nonempty := by decide

/-- A turn that is steered by a second user message. -/
def steeredTurn : Turn plainReplayServices.recognizers ℕ where
  turnId := ['b']
  body := [.turnContext (turnContextOf ['b']), .responseItem (userText ['y']),
    .responseItem (userText ['z'])]
  inner := by decide
  nonempty := by decide

/-- Two turns are rolled back: none of them survives the scan, so the settings of both are
gone, but the user message of the first one stays in the history. -/
theorem steered_turn_rolled_back :
    let r := reconstructRollout plainReplayServices false
      (rollout [.push plainTurn, .push steeredTurn, .pop 2])
    r.survivors.length = 0 ∧ r.previousTurnSettings = none ∧ r.referenceContextItem = none ∧
      r.history = [userText ['x']] := by
  decide

end Rollout
