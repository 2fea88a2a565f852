/-
# The world state of a live session and of its rollout

A live session renders its world state against the baseline in its context manager and
persists full snapshots, merge patches and compactions.  Reconstructing the session
from its rollout replays these records.
-/
import BetterCodex.RolloutReconstruction
import BetterCodex.WorldStateSections

namespace Rollout

open RustStr Json History WorldState Runs List

variable {Opaque N Update : Type}

/-! ## The records that a scan collects -/

/-- World-state records and compactions. -/
def RolloutItem.isRecord : RolloutItem Opaque N → Bool
  | .worldState .. | .compacted _ => true
  | _ => false

/-- Rollback markers. -/
def RolloutItem.isRollback : RolloutItem Opaque N → Bool
  | .threadRolledBack _ => true
  | _ => false

/-- The records in the surviving segments and in the active one, newest first. -/
def Scan.collected (s : Scan Opaque N) : List (RolloutItem Opaque N) :=
  s.worldStateReplay ++ (s.activeSegment.map (·.worldStateReplay)).getD []

theorem takeCheckpointAttribution_worldStateReplay (segment : Segment Opaque N)
    (checkpoint : Option (TurnAttribution Opaque)) :
    (takeCheckpointAttribution segment checkpoint).1.worldStateReplay =
      segment.worldStateReplay := by
  rw [takeCheckpointAttribution]
  split_ifs <;> rfl

theorem finalizeActiveSegment_collects (segment : Segment Opaque N) {s : Scan Opaque N}
    (hpending : s.pendingRollbackTurns = 0) :
    (finalizeActiveSegment segment s).pendingRollbackTurns = 0 ∧
      (finalizeActiveSegment segment s).activeSegment = s.activeSegment ∧
      (finalizeActiveSegment segment s).worldStateReplay =
        s.worldStateReplay ++ segment.worldStateReplay := by
  rw [finalizeActiveSegment, if_neg (by omega)]
  exact ⟨hpending, rfl, rfl⟩

theorem updateActive_collected (s : Scan Opaque N) {f : Segment Opaque N → Segment Opaque N}
    {records : List (RolloutItem Opaque N)}
    (hf : ∀ segment, (f segment).worldStateReplay = segment.worldStateReplay ++ records) :
    (s.updateActive f).collected = s.collected ++ records := by
  cases hactive : s.activeSegment with
  | none => simp [Scan.updateActive, Scan.collected, hactive, hf]
  | some segment => simp [Scan.updateActive, Scan.collected, hactive, hf]

theorem attribute_collects (s : Scan Opaque N) (turnId : Text)
    (attribution : Option (TurnAttribution Opaque)) :
    (s.attribute turnId attribution).pendingRollbackTurns = s.pendingRollbackTurns ∧
      (s.attribute turnId attribution).collected = s.collected := by
  cases attribution with
  | none => exact ⟨rfl, rfl⟩
  | some a =>
    rw [Scan.attribute]
    split_ifs
    · refine ⟨rfl, (updateActive_collected s fun segment => ?_).trans (append_nil _)⟩
      split_ifs <;> exact (append_nil _).symm
    · exact ⟨rfl, rfl⟩

/-- Ending a segment loses no record. -/
theorem endSegment_collects {s : Scan Opaque N} (hpending : s.pendingRollbackTurns = 0)
    (turnId : Text) : (s.endSegment turnId).pendingRollbackTurns = 0 ∧
      (s.endSegment turnId).collected = s.collected := by
  rw [Scan.endSegment]
  cases hactive : s.activeSegment with
  | none => exact ⟨hpending, rfl⟩
  | some segment =>
    dsimp only
    split_ifs
    · obtain ⟨hpending', hactive', hreplay⟩ := finalizeActiveSegment_collects
        (takeCheckpointAttribution { segment with turnId := segment.turnId.or (some turnId) }
          s.checkpointAttribution).1
        (s := { s with
          activeSegment := none
          checkpointAttribution := (takeCheckpointAttribution
            { segment with turnId := segment.turnId.or (some turnId) }
            s.checkpointAttribution).2 }) hpending
      refine ⟨hpending', ?_⟩
      rw [Scan.collected, hactive', hreplay, takeCheckpointAttribution_worldStateReplay,
        Scan.collected, hactive]
      simp
    · exact ⟨hpending, rfl⟩

variable {item : RolloutItem Opaque N}

/-- One item of the scan: records are collected, and only rollback markers let segments
be skipped. -/
theorem scanItem_collects (srv : ReplayServices Opaque) (checkpointTurnId : Option Text)
    (hitem : item.isRollback = false) (suffix : List (RolloutItem Opaque N)) {s : Scan Opaque N}
    (hpending : s.pendingRollbackTurns = 0) :
    (scanItem srv checkpointTurnId item suffix s).pendingRollbackTurns = 0 ∧
      (scanItem srv checkpointTurnId item suffix s).collected =
        s.collected ++ [item].filter RolloutItem.isRecord := by
  cases item with
  | threadRolledBack numTurns => cases hitem
  | compacted c => exact ⟨hpending, updateActive_collected s fun _ => rfl⟩
  | worldState full state => exact ⟨hpending, updateActive_collected s fun _ => rfl⟩
  | turnStarted turnId attribution =>
    have hattribute := attribute_collects
      { s with startedTurnIds := s.startedTurnIds.tail } turnId attribution
    have hend := endSegment_collects (hattribute.1.trans hpending) turnId
    refine ⟨hend.1, hend.2.trans (hattribute.2.trans ?_)⟩
    exact (append_nil _).symm
  | turnComplete turnId =>
    rw [scanItem]
    split_ifs
    · exact ⟨hpending, updateActive_collected s fun _ => (append_nil _).symm⟩
    · exact ⟨hpending, (append_nil _).symm⟩
  | turnAborted turnId =>
    rw [scanItem]
    split_ifs
    · rw [Scan.turnAborted]
      cases hactive : s.activeSegment with
      | none =>
        refine ⟨hpending, ?_⟩
        cases turnId <;> simp [Scan.collected, hactive, RolloutItem.isRecord]
      | some segment => exact ⟨hpending, by simp [Scan.collected, hactive, RolloutItem.isRecord]⟩
    · exact ⟨hpending, (append_nil _).symm⟩
  | turnContext ctx =>
    refine ⟨hpending, updateActive_collected s fun segment => ?_⟩
    rw [Segment.addTurnContext]
    split_ifs <;> exact (append_nil _).symm
  | userMessage | responseItem | interAgentCommunication =>
    exact ⟨hpending, updateActive_collected s fun _ => (append_nil _).symm⟩
  | sessionMeta | other => exact ⟨hpending, (append_nil _).symm⟩

/-- Without rollbacks the scan collects every record, newest first. -/
theorem scan_collects (srv : ReplayServices Opaque) (checkpointTurnId : Option Text)
    {s : Scan Opaque N} (hpending : s.pendingRollbackTurns = 0)
    {items : List (RolloutItem Opaque N)} (hitems : ∀ item ∈ items, item.isRollback = false) :
    (scan srv checkpointTurnId s items).pendingRollbackTurns = 0 ∧
      (scan srv checkpointTurnId s items).collected =
        s.collected ++ (items.filter RolloutItem.isRecord).reverse := by
  induction items with
  | nil => exact ⟨hpending, (append_nil _).symm⟩
  | cons item items ih =>
    obtain ⟨hitem, hitems⟩ := forall_mem_cons.1 hitems
    obtain ⟨hpending', hcollected⟩ := ih hitems
    obtain ⟨hpending'', hcollected'⟩ :=
      scanItem_collects srv checkpointTurnId hitem items hpending'
    refine ⟨hpending'', hcollected'.trans ?_⟩
    rw [hcollected, ← singleton_append (l := items), filter_append, reverse_append, append_assoc]
    cases hrecord : item.isRecord <;> simp [hrecord]

theorem finish_worldStateReplay {s : Scan Opaque N} (hpending : s.pendingRollbackTurns = 0)
    (checkpointTurnId : Option Text) (resumed : Bool) :
    (s.finish checkpointTurnId resumed).worldStateReplay = s.collected := by
  rw [Scan.finish]
  cases hactive : s.activeSegment with
  | none => simp [Scan.collected, hactive]
  | some segment =>
    dsimp only
    rw [finalizeActiveSegment, if_neg (by simp [hpending]), Scan.collected, hactive]
    simp [takeCheckpointAttribution_worldStateReplay]

/-! ## The replay of the records -/

variable [DecidableEq N]

theorem replayRecord_of_not_record (h : item.isRecord = false)
    (baseline : Option (WorldStateSnapshot N)) : replayRecord baseline item = baseline := by
  cases item with
  | worldState | compacted => cases h
  | _ => rfl

/-- Only the records count. -/
theorem foldl_replayRecord_filter (items : List (RolloutItem Opaque N))
    (baseline : Option (WorldStateSnapshot N)) :
    (items.filter RolloutItem.isRecord).foldl replayRecord baseline =
      items.foldl replayRecord baseline := by
  induction items generalizing baseline with
  | nil => rfl
  | cons item items ih =>
    cases hitem : item.isRecord with
    | true => rw [filter_cons_of_pos hitem, foldl_cons, foldl_cons, ih]
    | false =>
      rw [filter_cons_of_neg (by simp [hitem]), ih, foldl_cons,
        replayRecord_of_not_record hitem]

/-- **The world state of a reconstruction.**  Without rollback markers it is the replay of
all records in their order. -/
theorem reconstructRollout_worldStateBaseline (srv : ReplayServices Opaque) (paginated : Bool)
    {items : List (RolloutItem Opaque N)} (hitems : ∀ item ∈ items, item.isRollback = false) :
    (reconstructRollout srv paginated items).worldStateBaseline =
      items.foldl replayRecord none := by
  -- the scan runs over the items behind the selected compaction
  have hscan : ∀ (replayItems : List (RolloutItem Opaque N)) (turnId : Option Text)
      (start : Scan Opaque N) (resumed : Bool),
      (∀ item ∈ replayItems, item.isRollback = false) → start.pendingRollbackTurns = 0 →
      start.collected = [] →
      ((scan srv turnId start replayItems).finish turnId resumed).worldStateReplay.reverse.foldl
        replayRecord none = replayItems.foldl replayRecord none := by
    intro replayItems turnId start resumed hreplay hpending hstart
    obtain ⟨hpending', hcollected⟩ := scan_collects srv turnId hpending hreplay
    rw [finish_worldStateReplay hpending', hcollected, hstart, nil_append,
      reverse_reverse, foldl_replayRecord_filter]
  rw [reconstructRollout]
  cases hinput : selectInputCompaction items paginated with
  | none => exact hscan _ _ _ _ hitems rfl rfl
  | some checkpoint =>
    obtain ⟨hnewest, -⟩ := Option.filter_eq_some_iff.1 hinput
    obtain ⟨front, hsplit⟩ := newestCompaction_eq_some hnewest
    have hsuffix : ∀ item ∈ checkpoint.suffix, item.isRollback = false := by
      intro item hmem
      apply hitems
      rw [hsplit]
      exact mem_append_right _ (mem_cons_of_mem _ hmem)
    -- whatever came before the compaction is gone with it
    have hfront : items.foldl replayRecord none = checkpoint.suffix.foldl replayRecord none := by
      rw [hsplit, foldl_append, foldl_cons]
      rfl
    exact (hscan _ _ _ _ hsuffix rfl rfl).trans hfront.symm

/-! ## Live sessions -/

/-- What a live session takes from elsewhere. -/
structure LiveServices (Opaque Update : Type) extends ReplayServices Opaque where
  /-- `merge_world_state_updates`. -/
  mergeWorldStateUpdates : List Update → List (Envelope Opaque)

/-- A live session: its history, and the rollout with the baseline of the state of the
history that each item was written for. -/
structure Session (Opaque N : Type) where
  history : ContextManager Opaque (TurnContextItem Opaque) (WorldStateSnapshot N) := {}
  rollout : List (RolloutItem Opaque N × Option (WorldStateSnapshot N)) := []

variable (s : Session Opaque N)

/-- The persisted items. -/
def Session.items : List (RolloutItem Opaque N) := s.rollout.map (·.1)

/-- `persist_rollout_items`. -/
def Session.persist (items : List (RolloutItem Opaque N)) :
    Session Opaque N :=
  { s with rollout := s.rollout ++ items.map (·, s.history.worldStateBaseline) }

def Session.setWorldStateBaseline (snapshot : WorldStateSnapshot N) :
    Session Opaque N :=
  { s with history := { s.history with worldStateBaseline := some snapshot } }

variable (srv : Services Opaque)

def Session.recordConversationItems (s : Session Opaque N)
    (items : List (Envelope Opaque)) : Session Opaque N :=
  ({ s with history := s.history.recordItems srv items } : Session Opaque N).persist
    (items.map .responseItem)

def worldStateItem (baseline : Option (WorldStateSnapshot N)) (snapshot : WorldStateSnapshot N) :
    Option (RolloutItem Opaque N) :=
  match baseline with
  | none => some (.worldState true snapshot)
  | some previous => (mergePatchFrom snapshot previous).map (.worldState false)

/-- The operations of a live session on its history. -/
inductive Op (Opaque N Update : Type) where
  /-- `record_context_updates_and_set_reference_context_item` with full initial context. -/
  | injectFullContext (world : LiveWorldState N Update)
  /-- `record_context_updates_and_set_reference_context_item` otherwise. -/
  | updateContext (world : LiveWorldState N Update)
  /-- `record_step_world_state_if_changed`. -/
  | recordStep (world : LiveWorldState N Update)
  /-- `replace_compacted_history`, of the whole history or of a captured front part. -/
  | compact (world : LiveWorldState N Update) (ofFront : Bool) (items : List (Envelope Opaque))
      (compacted : CompactedItem Opaque) (reference : TurnContextItem Opaque)
  | recordItems (items : List (Envelope Opaque))
  /-- Items that are neither records nor rollback markers. -/
  | persist (item : RolloutItem Opaque N)
  | removeFirstItem
  /-- `replace_annotated_history` with `HistoryReplacement::Reset`. -/
  | reset (items : List (Envelope Opaque)) (reference : Option (TurnContextItem Opaque))
  /-- The session is resumed from its rollout. -/
  | resume (paginated : Bool)

/-- The compaction record and the full snapshot are written together, after the history
is replaced and its new baseline is set. -/
def Session.compact (snapshot : WorldStateSnapshot N)
    (items : List (Envelope Opaque)) (compacted : CompactedItem Opaque)
    (reference : TurnContextItem Opaque) : Session Opaque N :=
  let replaced := { s.history.replaceCompacted items with referenceContextItem := some reference }
  let compacted := { compacted with replacementHistory := some items }
  { history := { replaced with worldStateBaseline := some snapshot }
    rollout := s.rollout ++
      [(.compacted compacted, replaced.worldStateBaseline),
        (.worldState true snapshot, some snapshot),
        (.turnContext reference, some snapshot),
        (.other, some snapshot)] }

/-- One operation. -/
def step (srv : LiveServices Opaque Update) (s : Session Opaque N) :
    Op Opaque N Update → Option (Session Opaque N)
  | .injectFullContext world =>
    let (snapshot, updates) := renderFull world
    some (((s.setWorldStateBaseline snapshot).recordConversationItems srv.toServices
      (srv.mergeWorldStateUpdates updates)).persist [.worldState true snapshot])
  | .updateContext world =>
    let (snapshot, updates) :=
      renderHistoryDiff world s.history.worldStateBaseline s.history.items
    let item := worldStateItem s.history.worldStateBaseline snapshot
    some (((s.setWorldStateBaseline snapshot).recordConversationItems srv.toServices
      (srv.mergeWorldStateUpdates updates)).persist item.toList)
  | .recordStep world =>
    let (snapshot, updates) :=
      renderHistoryDiff world s.history.worldStateBaseline s.history.items
    let item := worldStateItem s.history.worldStateBaseline snapshot
    some (((s.recordConversationItems srv.toServices
      (srv.mergeWorldStateUpdates updates)).setWorldStateBaseline snapshot).persist item.toList)
  | .compact world ofFront items compacted reference =>
    -- the items behind the front part already contain the updates up to the baseline
    let snapshot := if ofFront then s.history.worldStateBaseline.getD (renderFull world).1
      else (renderFull world).1
    some (s.compact snapshot items compacted reference)
  | .recordItems items => some (s.recordConversationItems srv.toServices items)
  | .persist item => if item.isRecord || item.isRollback then none else some (s.persist [item])
  | .removeFirstItem => some { s with history := s.history.removeFirstItem }
  | .reset items reference =>
    some { s with
      history := { s.history.replaceAnnotated items with referenceContextItem := reference } }
  | .resume paginated =>
    let r := reconstructRollout srv.toReplayServices paginated s.items
    let fresh : ContextManager Opaque (TurnContextItem Opaque) (WorldStateSnapshot N) := {}
    some { s with
      history := { fresh.replaceAnnotated r.history with
        referenceContextItem := r.referenceContextItem
        worldStateBaseline := r.worldStateBaseline } }

/-! ## The invariant -/

/-- Replayed from a baseline, each record gives the baseline it was written for. -/
def Written : Option (WorldStateSnapshot N) →
    List (RolloutItem Opaque N × Option (WorldStateSnapshot N)) → Prop
  | _, [] => True
  | baseline, (item, held) :: rest =>
    (item.isRecord = true → replayRecord baseline item = held) ∧
      Written (replayRecord baseline item) rest

/-- The replay of the rollout so far. -/
def Session.replayed : Option (WorldStateSnapshot N) :=
  s.items.foldl replayRecord none

/-- **The simulation relation.**  The rollout replays to what its records were written for,
and the live baseline is gone or it is the replayed one. -/
structure Synchronized (s : Session Opaque N) : Prop where
  written : Written none s.rollout
  noRollback : ∀ item ∈ s.items, item.isRollback = false
  live : s.history.worldStateBaseline = none ∨ s.history.worldStateBaseline = s.replayed
  clean : ∀ o ∈ s.replayed, o.NullFree

theorem written_append (baseline : Option (WorldStateSnapshot N))
    (front back : List (RolloutItem Opaque N × Option (WorldStateSnapshot N))) :
    Written baseline (front ++ back) ↔
      Written baseline front ∧ Written ((front.map (·.1)).foldl replayRecord baseline) back := by
  induction front generalizing baseline with
  | nil => simp [Written]
  | cons entry front ih =>
    rw [cons_append, Written, Written, ih, and_assoc]
    rfl

variable {baseline : Option (WorldStateSnapshot N)}
  {entries : List (RolloutItem Opaque N × Option (WorldStateSnapshot N))}

theorem written_of_no_records (h : ∀ e ∈ entries, e.1.isRecord = false) :
    Written baseline entries ∧ (entries.map (·.1)).foldl replayRecord baseline = baseline := by
  induction entries with
  | nil => exact ⟨trivial, rfl⟩
  | cons e entries ih =>
    obtain ⟨he, hentries⟩ := forall_mem_cons.1 h
    rw [Written, map_cons, foldl_cons, replayRecord_of_not_record he]
    exact ⟨⟨fun hrecord => absurd hrecord (by simp [he]), (ih hentries).1⟩, (ih hentries).2⟩

variable {s s' : Session Opaque N}

/-- New records keep the session and its rollout in step. -/
theorem Synchronized.extend (h : Synchronized s) (hrollout : s'.rollout = s.rollout ++ entries)
    (hwritten : Written s.replayed entries) (hrollback : ∀ e ∈ entries, e.1.isRollback = false)
    {replayed : Option (WorldStateSnapshot N)}
    (hreplayed : (entries.map (·.1)).foldl replayRecord s.replayed = replayed)
    (hlive : s'.history.worldStateBaseline = none ∨ s'.history.worldStateBaseline = replayed)
    (hclean : ∀ o ∈ replayed, o.NullFree) : Synchronized s' := by
  have hitems : s'.items = s.items ++ entries.map (·.1) := by
    rw [Session.items, hrollout, map_append, Session.items]
  have hs' : s'.replayed = replayed := by
    rw [Session.replayed, hitems, foldl_append]
    exact hreplayed
  refine ⟨?_, ?_, hs' ▸ hlive, hs' ▸ hclean⟩
  · rw [hrollout, written_append]
    exact ⟨h.written, hwritten⟩
  · rw [hitems]
    intro item hitem
    rcases mem_append.1 hitem with hitem | hitem
    · exact h.noRollback item hitem
    · obtain ⟨e, he, rfl⟩ := mem_map.1 hitem
      exact hrollback e he

variable {snapshot : WorldStateSnapshot N}

/-- The record of an update leads to the new snapshot from the live baseline. -/
theorem worldStateItem_replays {live replayed : Option (WorldStateSnapshot N)}
    (hlive : live = none ∨ live = replayed) (hfree : snapshot.NullFree) :
    ((worldStateItem live snapshot : Option (RolloutItem Opaque N)).toList.foldl replayRecord
      replayed) = some snapshot := by
  cases live with
  | none => rfl
  | some previous =>
    have hreplayed : some previous = replayed := hlive.resolve_left nofun
    rw [← hreplayed, worldStateItem]
    cases hpatch : mergePatchFrom snapshot previous with
    | none => exact congrArg some (mergePatchFrom_eq_none.1 hpatch)
    | some patch => exact congrArg some (applyMergePatch_mergePatchFrom hfree hpatch)

theorem worldStateItem_not_rollback {live : Option (WorldStateSnapshot N)}
    (h : item ∈ (worldStateItem live snapshot).toList) : item.isRollback = false := by
  cases live with
  | none =>
    rw [mem_singleton.1 h]
    rfl
  | some previous =>
    rw [worldStateItem, Option.mem_toList] at h
    obtain ⟨patch, -, rfl⟩ := Option.map_eq_some_iff.1 h
    rfl

omit [DecidableEq N] in
theorem recordItems_worldStateBaseline
    (m : ContextManager Opaque (TurnContextItem Opaque) (WorldStateSnapshot N))
    (items : List (Envelope Opaque)) :
    (m.recordItems srv items).worldStateBaseline = m.worldStateBaseline := by
  rw [ContextManager.recordItems]
  induction items generalizing m with
  | nil => rfl
  | cons e items ih =>
    rw [foldl_cons, ih, ContextManager.recordItem]
    split_ifs <;> rfl

/-- The items of a conversation, written with some baseline. -/
def conversation (items : List (Envelope Opaque)) (baseline : Option (WorldStateSnapshot N)) :
    List (RolloutItem Opaque N × Option (WorldStateSnapshot N)) :=
  items.map fun e => (.responseItem e, baseline)

omit [DecidableEq N] in
theorem recordConversationItems_rollout (s : Session Opaque N) (items : List (Envelope Opaque)) :
    (s.recordConversationItems srv items).rollout =
      s.rollout ++ conversation items s.history.worldStateBaseline := by
  rw [Session.recordConversationItems, Session.persist, recordItems_worldStateBaseline, map_map]
  rfl

omit [DecidableEq N] in
theorem conversation_not_record {items : List (Envelope Opaque)}
    {e : RolloutItem Opaque N × Option (WorldStateSnapshot N)}
    (h : e ∈ conversation items baseline) : e.1.isRecord = false ∧ e.1.isRollback = false := by
  obtain ⟨_, -, rfl⟩ := mem_map.1 h
  exact ⟨rfl, rfl⟩

/-- The entries of an update: the conversation changes nothing, the record does. -/
theorem written_update {b held : Option (WorldStateSnapshot N)} {item : Option (RolloutItem Opaque N)}
    (hreplay : item.toList.foldl replayRecord b = held) (context : List (Envelope Opaque))
    (baseline : Option (WorldStateSnapshot N)) :
    Written b (conversation context baseline ++ item.toList.map (·, held)) ∧
      ((conversation context baseline ++ item.toList.map (·, held)).map (·.1)).foldl replayRecord b =
        held := by
  have hcontext : Written b (conversation context baseline) ∧
      ((conversation context baseline).map (·.1)).foldl replayRecord b = b :=
    written_of_no_records fun e he => (conversation_not_record he).1
  rw [written_append, map_append, foldl_append, hcontext.2]
  cases item with
  | none => exact ⟨⟨hcontext.1, trivial⟩, hreplay⟩
  | some item => exact ⟨⟨hcontext.1, fun _ => hreplay, trivial⟩, hreplay⟩

open Option

/-- A rendered state and its record keep both in step. -/
theorem Synchronized.update (h : Synchronized s) (hfree : snapshot.NullFree)
    {context : List (Envelope Opaque)} {item : Option (RolloutItem Opaque N)}
    (hrollout : s'.rollout =
      s.rollout ++ (conversation context baseline ++ item.toList.map (·, some snapshot)))
    (hbaseline : s'.history.worldStateBaseline = some snapshot)
    (hitem : ∀ i ∈ item.toList, i.isRollback = false)
    (hreplay : item.toList.foldl replayRecord s.replayed = some snapshot) : Synchronized s' := by
  obtain ⟨hwritten, hreplayed⟩ := written_update hreplay context baseline
  refine h.extend hrollout hwritten ?_ hreplayed (Or.inr hbaseline) ?_
  · intro e he
    rcases mem_append.1 he with he | he
    · exact (conversation_not_record he).2
    · obtain ⟨i, hi, rfl⟩ := mem_map.1 he
      exact hitem i hi
  · intro o ho
    exact some.inj ho ▸ hfree

omit [DecidableEq N] in
theorem recordConversationItems_baseline (s : Session Opaque N) (items : List (Envelope Opaque)) :
    (s.recordConversationItems srv items).history.worldStateBaseline =
      s.history.worldStateBaseline :=
  recordItems_worldStateBaseline srv s.history items

omit [DecidableEq N] in
/-- What an update writes, if the baseline is set before the conversation is recorded. -/
theorem update_rollout (s : Session Opaque N)
    (snapshot : WorldStateSnapshot N) (context : List (Envelope Opaque))
    (records : List (RolloutItem Opaque N)) :
    (((s.setWorldStateBaseline snapshot).recordConversationItems srv context).persist
        records).rollout =
      s.rollout ++ (conversation context (some snapshot) ++ records.map (·, some snapshot)) := by
  rw [Session.persist, recordConversationItems_baseline, recordConversationItems_rollout,
    ← append_assoc]
  rfl

omit [DecidableEq N] in
/-- What an update writes, if the baseline is set after it. -/
theorem step_rollout (s : Session Opaque N)
    (snapshot : WorldStateSnapshot N) (context : List (Envelope Opaque))
    (records : List (RolloutItem Opaque N)) :
    (((s.recordConversationItems srv context).setWorldStateBaseline snapshot).persist
        records).rollout =
      s.rollout ++ (conversation context s.history.worldStateBaseline ++
        records.map (·, some snapshot)) := by
  rw [Session.persist, Session.setWorldStateBaseline, recordConversationItems_rollout,
    ← append_assoc]

theorem Synchronized.live_clean (h : Synchronized s) :
    ∀ o ∈ s.history.worldStateBaseline, o.NullFree := by
  rcases h.live with hlive | hlive
  · rw [hlive]
    exact nofun
  · rw [hlive]
    exact h.clean

/-- A session after an operation that writes no record and keeps the baseline or drops it. -/
theorem Synchronized.of_no_records (h : Synchronized s)
    (hrollout : s'.rollout = s.rollout ++ entries)
    (hentries : ∀ e ∈ entries, e.1.isRecord = false ∧ e.1.isRollback = false)
    (hlive : s'.history.worldStateBaseline = none ∨
      s'.history.worldStateBaseline = s.history.worldStateBaseline) : Synchronized s' := by
  obtain ⟨hwritten, hsame⟩ := written_of_no_records (fun e he => (hentries e he).1)
  refine h.extend hrollout hwritten (fun e he => (hentries e he).2) hsame ?_ h.clean
  rcases hlive with hlive | hlive
  · exact Or.inl hlive
  · rw [hlive]
    exact h.live

theorem Synchronized.of_rollout_eq (h : Synchronized s) (hrollout : s'.rollout = s.rollout)
    (hlive : s'.history.worldStateBaseline = none ∨ s'.history.worldStateBaseline = s.replayed) :
    Synchronized s' :=
  h.extend (hrollout.trans (append_nil _).symm) trivial (fun _ he => absurd he not_mem_nil)
    rfl hlive h.clean

omit [DecidableEq N] in
theorem removeFirstItem_worldStateBaseline
    (m : ContextManager Opaque (TurnContextItem Opaque) (WorldStateSnapshot N)) :
    m.removeFirstItem.worldStateBaseline = none ∨
      m.removeFirstItem.worldStateBaseline = m.worldStateBaseline := by
  rw [ContextManager.removeFirstItem]
  split
  · exact Or.inr rfl
  · exact Or.inl rfl

/-- A session after a compaction: the full snapshot follows the compaction record. -/
theorem Synchronized.compact (h : Synchronized s) (hfree : snapshot.NullFree)
    (items : List (Envelope Opaque)) (compacted : CompactedItem Opaque)
    (reference : TurnContextItem Opaque) :
    Synchronized (s.compact snapshot items compacted reference) := by
  refine h.extend rfl ?_ ?_ rfl (Or.inr rfl) ?_
  · exact ⟨fun _ => rfl, fun _ => rfl, nofun, nofun, trivial⟩
  · simp [RolloutItem.isRollback]
  · intro o ho
    exact some.inj ho ▸ hfree

/-- Every operation keeps the live baseline and the rollout together. -/
theorem step_synchronized (srv : LiveServices Opaque Update) {op : Op Opaque N Update}
    (h : Synchronized s) (hstep : step srv s op = some s') : Synchronized s' := by
  cases op with
  | injectFullContext world =>
    obtain rfl := some.inj hstep
    have hrollout := update_rollout srv.toServices s (renderFull world).1
      (srv.mergeWorldStateUpdates (renderFull world).2)
      (some (.worldState true (renderFull world).1)).toList
    exact h.update (nullFree_renderFull world) hrollout (recordConversationItems_baseline _ _ _)
      (fun i hi => mem_singleton.1 hi ▸ rfl) rfl
  | updateContext world =>
    obtain rfl := some.inj hstep
    have hfree := nullFree_renderHistoryDiff world h.live_clean s.history.items
    exact h.update hfree (update_rollout _ _ _ _ _) (recordConversationItems_baseline _ _ _)
      (fun _ => worldStateItem_not_rollback) (worldStateItem_replays h.live hfree)
  | recordStep world =>
    obtain rfl := some.inj hstep
    have hfree := nullFree_renderHistoryDiff world h.live_clean s.history.items
    exact h.update hfree (step_rollout _ _ _ _ _) rfl (fun _ => worldStateItem_not_rollback)
      (worldStateItem_replays h.live hfree)
  | compact world ofFront items compacted reference =>
    obtain rfl := some.inj hstep
    refine h.compact ?_ items compacted reference
    split_ifs
    · cases hlive : s.history.worldStateBaseline with
      | none => exact nullFree_renderFull world
      | some o => exact h.live_clean o hlive
    · exact nullFree_renderFull world
  | recordItems items =>
    obtain rfl := some.inj hstep
    exact h.of_no_records (recordConversationItems_rollout _ _ _)
      (fun _ => conversation_not_record) (Or.inr (recordConversationItems_baseline _ _ _))
  | persist item =>
    rw [step] at hstep
    split_ifs at hstep with hitem
    obtain rfl := some.inj hstep
    simp only [Bool.or_eq_true, not_or, Bool.not_eq_true] at hitem
    refine h.of_no_records rfl (fun e he => ?_) (Or.inr rfl)
    rwa [mem_singleton.1 he]
  | removeFirstItem =>
    obtain rfl := some.inj hstep
    refine h.of_rollout_eq rfl ?_
    rcases removeFirstItem_worldStateBaseline s.history with hnone | hsame
    · exact Or.inl hnone
    · exact hsame ▸ h.live
  | reset items reference =>
    obtain rfl := some.inj hstep
    exact h.of_rollout_eq rfl (Or.inl rfl)
  | resume paginated =>
    obtain rfl := some.inj hstep
    exact h.of_rollout_eq rfl
      (Or.inr (reconstructRollout_worldStateBaseline _ paginated h.noRollback))

/-! ## Replay after each record -/

/-- An operation that writes a record leaves a baseline behind. -/
theorem step_record_baseline (srv : LiveServices Opaque Update) {op : Op Opaque N Update}
    (hstep : step srv s op = some s') (hrollout : s'.rollout = s.rollout ++ entries)
    (hrecord : ∃ e ∈ entries, e.1.isRecord = true) : s'.history.worldStateBaseline ≠ none := by
  obtain ⟨e, he, hrecord⟩ := hrecord
  -- of the operations that do not set a baseline, none writes a record
  have hother : ∀ {written}, s'.rollout = s.rollout ++ written →
      (∀ e ∈ written, e.1.isRecord = false) → s'.history.worldStateBaseline ≠ none := by
    intro written hwritten hnone
    obtain rfl := append_cancel_left (hrollout.symm.trans hwritten)
    exact absurd hrecord (by simp [hnone e he])
  cases op with
  | injectFullContext world =>
    obtain rfl := some.inj hstep
    exact fun h => nomatch (recordConversationItems_baseline _ _ _).symm.trans h
  | updateContext world =>
    obtain rfl := some.inj hstep
    exact fun h => nomatch (recordConversationItems_baseline _ _ _).symm.trans h
  | recordStep world =>
    obtain rfl := some.inj hstep
    exact nofun
  | compact world ofFront items compacted reference =>
    obtain rfl := some.inj hstep
    exact nofun
  | recordItems items =>
    obtain rfl := some.inj hstep
    exact hother (recordConversationItems_rollout _ _ _) fun e he => (conversation_not_record he).1
  | persist item =>
    rw [step] at hstep
    split_ifs at hstep with hitem
    obtain rfl := some.inj hstep
    simp only [Bool.or_eq_true, not_or, Bool.not_eq_true] at hitem
    exact hother rfl fun e he => mem_singleton.1 he ▸ hitem.1
  | removeFirstItem | reset items reference | resume paginated =>
    obtain rfl := some.inj hstep
    exact hother (append_nil _).symm fun e he => absurd he not_mem_nil

theorem synchronized_new : Synchronized ({} : Session Opaque N) :=
  ⟨trivial, fun _ h => absurd h not_mem_nil, Or.inl rfl,
    fun _ h => absurd h (not_mem_none _)⟩

/-- **Replay of the world state.**  In every run of a live session, with updates of the
world state, compactions, resets of the history and resumptions in any order, the
reconstruction from the rollout up to any record gives the baseline that the record was
written for, and right after an operation that wrote a record it gives the baseline of
the live context manager. -/
theorem world_state_replay (srv : LiveServices Opaque Update) (paginated : Bool)
    (ops : List (Op Opaque N Update)) (s : Session Opaque N)
    (hrun : run (step srv) {} ops = some s) :
    (∀ front item held back, s.rollout = front ++ (item, held) :: back → item.isRecord = true →
      (reconstructRollout srv.toReplayServices paginated
        (front.map (·.1) ++ [item])).worldStateBaseline = held) ∧
    ∀ op s' entries, step srv s op = some s' → s'.rollout = s.rollout ++ entries →
      (∃ e ∈ entries, e.1.isRecord = true) →
      (reconstructRollout srv.toReplayServices paginated s'.items).worldStateBaseline =
        s'.history.worldStateBaseline := by
  have h : Synchronized s :=
    run_invariant (fun s op s' h hstep => step_synchronized srv h hstep) synchronized_new hrun
  constructor
  · intro front item held back hsplit hrecord
    rw [reconstructRollout_worldStateBaseline]
    · have hwritten := h.written
      rw [hsplit, written_append] at hwritten
      rw [foldl_append]
      exact hwritten.2.1 hrecord
    · intro i hi
      refine h.noRollback i ?_
      rw [Session.items, hsplit]
      rcases mem_append.1 hi with hi | hi
      · simp only [map_append]
        exact mem_append_left _ hi
      · simp [mem_singleton.1 hi]
  · intro op s' entries hstep hrollout hrecord
    have h' := step_synchronized srv h hstep
    rw [reconstructRollout_worldStateBaseline _ _ h'.noRollback]
    exact (h'.live.resolve_left (step_record_baseline srv hstep hrollout hrecord)).symm

/-- A world state of one section that is always stored as one number. -/
def numberWorld (v : ℕ) : LiveWorldState ℕ Unit where
  sections := [(['n'], extensionSection (fun _ _ => false) false (fun _ _ => false)
    fun _ => (some ⟨.number v, trivial⟩, []))]
  nodup := nodup_singleton _
  notRetired := (by decide : retiredCheckpointId ∉ [['n']])

/-- Services that recognise and write nothing. -/
def quietServices : LiveServices Unit Unit where
  toReplayServices := plainReplayServices
  mergeWorldStateUpdates _ := []

/-- A full snapshot, then a patch. -/
theorem world_state_replay_patch :
    ∃ s, run (step quietServices) {} [.injectFullContext (numberWorld 1),
        .updateContext (numberWorld 2)] = some s ∧ s.rollout.length = 2 ∧
      ∀ front item held back, s.rollout = front ++ (item, held) :: back → item.isRecord = true →
        (reconstructRollout quietServices.toReplayServices false
          (front.map (·.1) ++ [item])).worldStateBaseline = held :=
  ⟨_, rfl, rfl, (world_state_replay quietServices false
    [.injectFullContext (numberWorld 1), .updateContext (numberWorld 2)] _ rfl).1⟩

end Rollout
