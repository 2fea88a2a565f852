/-
# Reconstructing a session from its rollout

A rollout is the list of persisted items of a thread.  `reconstruct_rollout` scans it
from the newest item to the oldest one to find the turns that survive later rollbacks
and what they left behind, and then replays the items forward to build the history.

The windows, the turn settings and the reference context are the ones of the newest
segments that survive.  Not in the source are `Segment.userMessages` and
`Scan.survivors`: they remember which segments were not skipped, and nothing else
depends on them.
-/
import BetterCodex.ContextManager
import BetterCodex.MergePatch

namespace Rollout

open RustStr Json History WorldState

/-! ## Items -/

structure TurnAttribution (Opaque : Type) where
  turnId : Text
  rest : Opaque
  deriving DecidableEq, Repr

structure PreviousTurnSettings (Opaque : Type) where
  model : Text
  cyberAccessProgram : Option Opaque
  compHash : Option Text
  realtimeActive : Option Bool
  deriving DecidableEq, Repr

/-- `TurnContextItem`: the turn, the settings that later turns compare with, and the rest. -/
structure TurnContextItem (Opaque : Type) where
  turnId : Option Text
  model : Text
  cyberAccessProgram : Option Opaque
  compHash : Option Text
  realtimeActive : Option Bool
  rest : Opaque
  deriving DecidableEq, Repr

structure CompactionResumeMetadata (Opaque : Type) where
  lastStartedTurnId : Option Text
  turnAttribution : Option (TurnAttribution Opaque)
  previousTurnSettings : Option (PreviousTurnSettings Opaque)
  deriving DecidableEq, Repr

structure CompactedItem (Opaque : Type) where
  message : Text
  replacementHistory : Option (List (Envelope Opaque))
  windowNumber : Option ℕ
  firstWindowId : Option Text
  previousWindowId : Option Text
  windowId : Option Text
  resumeMetadata : Option (CompactionResumeMetadata Opaque)
  deriving DecidableEq, Repr

/-- `RolloutItem`, with the events that the reconstruction reads as items of their own. -/
inductive RolloutItem (Opaque N : Type) where
  | sessionMeta (contextWindow : Option Text)
  | responseItem (envelope : Envelope Opaque)
  /-- `InterAgentCommunication`, as its `to_model_input_item`. -/
  | interAgentCommunication (item : ResponseItem Opaque)
  | turnContext (ctx : TurnContextItem Opaque)
  | worldState (full : Bool) (state : Object N)
  | compacted (item : CompactedItem Opaque)
  | turnStarted (turnId : Text) (attribution : Option (TurnAttribution Opaque))
  | turnComplete (turnId : Text)
  | turnAborted (turnId : Option Text)
  | userMessage
  | threadRolledBack (numTurns : ℕ)
  /-- Items that the reconstruction of the modelled fields passes over. -/
  | other

/-- What the reconstruction takes from elsewhere. -/
structure ReplayServices (Opaque : Type) extends Services Opaque where
  /-- `build_compacted_history` over `collect_annotated_user_messages`, with the summary. -/
  rebuildCompacted : List (Envelope Opaque) → Text → List (Envelope Opaque)
  /-- `parse_uuid_v7`, the UUID in its normal form. -/
  parseUuidV7 : Text → Option Text

variable {Opaque N : Type}

/-- The settings of a turn context. -/
def TurnContextItem.settings (ctx : TurnContextItem Opaque) : PreviousTurnSettings Opaque where
  model := ctx.model
  cyberAccessProgram := ctx.cyberAccessProgram
  compHash := ctx.compHash
  realtimeActive := ctx.realtimeActive

/-! ## Windows and checkpoints -/

structure ReconstructedWindow where
  number : ℕ
  firstId : Option Text := none
  previousId : Option Text := none
  id : Option Text := none
  deriving DecidableEq, Repr

variable (srv : ReplayServices Opaque)

/-- `reconstructed_window_from_compaction`. -/
def windowFromCompaction (c : CompactedItem Opaque) :
    Option ReconstructedWindow :=
  c.windowNumber.map fun number =>
    { number
      firstId := c.firstWindowId.bind srv.parseUuidV7
      previousId := c.previousWindowId.bind srv.parseUuidV7
      id := c.windowId.bind srv.parseUuidV7 }

/-- `reconstructed_window_from_session_context_window`. -/
def windowFromSession (windowId : Text) : Option ReconstructedWindow :=
  (srv.parseUuidV7 windowId).map fun id => { number := 0, firstId := some id, id := some id }

/-- `ReplayCheckpoint`: a compaction and the items behind it. -/
structure ReplayCheckpoint (Opaque N : Type) where
  compacted : CompactedItem Opaque
  suffix : List (RolloutItem Opaque N)

/-- The newest compaction with the items behind it. -/
def newestCompaction : List (RolloutItem Opaque N) → Option (ReplayCheckpoint Opaque N)
  | [] => none
  | .compacted c :: rest => (newestCompaction rest).or (some ⟨c, rest⟩)
  | _ :: rest => newestCompaction rest

/-- The newest compaction, and what follows it. -/
theorem newestCompaction_eq_some {items : List (RolloutItem Opaque N)}
    {checkpoint : ReplayCheckpoint Opaque N} (h : newestCompaction items = some checkpoint) :
    ∃ front, items = front ++ .compacted checkpoint.compacted :: checkpoint.suffix := by
  induction items with
  | nil => cases h
  | cons item items ih =>
    cases item with
    | compacted c =>
      rw [newestCompaction] at h
      rcases Option.or_eq_some_iff.1 h with h | ⟨-, h⟩
      · obtain ⟨front, rfl⟩ := ih h
        exact ⟨.compacted c :: front, rfl⟩
      · obtain rfl := Option.some.inj h
        exact ⟨[], rfl⟩
    | _ =>
      obtain ⟨front, rfl⟩ := ih h
      exact ⟨_ :: front, rfl⟩

def selectInputCompaction (items : List (RolloutItem Opaque N)) (paginated : Bool) :
    Option (ReplayCheckpoint Opaque N) :=
  (newestCompaction items).filter fun checkpoint =>
    checkpoint.compacted.replacementHistory.isSome && checkpoint.compacted.windowNumber.isSome
      && (checkpoint.compacted.resumeMetadata.isSome || paginated)

/-! ## The reverse scan -/

inductive TurnReferenceContextItem (Opaque : Type) where
  | neverSet
  | cleared
  | latest (ctx : TurnContextItem Opaque)

/-- Only a baseline that nothing newer has set or cleared may still be set. -/
def TurnReferenceContextItem.orElse (newer older : TurnReferenceContextItem Opaque) :
    TurnReferenceContextItem Opaque :=
  match newer with
  | .neverSet => older
  | newer => newer

/-- The baseline that was set last, unless a compaction cleared it. -/
def TurnReferenceContextItem.latest? : TurnReferenceContextItem Opaque → Option (TurnContextItem Opaque)
  | .latest ctx => some ctx
  | .neverSet | .cleared => none

/-- `ActiveReplaySegment`, with the user messages of the segment. -/
structure Segment (Opaque N : Type) where
  turnId : Option Text := none
  turnCompleted : Bool := false
  countsAsUserTurn : Bool := false
  previousTurnSettings : Option (PreviousTurnSettings Opaque) := none
  referenceContextItem : TurnReferenceContextItem Opaque := .neverSet
  turnAttribution : Option (TurnAttribution Opaque) := none
  worldStateReplay : List (RolloutItem Opaque N) := []
  historyCheckpoint : Option (ReplayCheckpoint Opaque N) := none
  window : Option ReconstructedWindow := none
  userMessages : List (Envelope Opaque) := []

/-- The variables of the reverse scan, with the segments that were not skipped. -/
structure Scan (Opaque N : Type) where
  startedTurnIds : List Text := []
  historyCheckpoint : Option (ReplayCheckpoint Opaque N) := none
  window : Option ReconstructedWindow := none
  previousTurnSettings : Option (PreviousTurnSettings Opaque) := none
  referenceContextItem : TurnReferenceContextItem Opaque := .neverSet
  turnAttribution : Option (TurnAttribution Opaque) := none
  worldStateReplay : List (RolloutItem Opaque N) := []
  pendingRollbackTurns : ℕ := 0
  checkpointAttribution : Option (TurnAttribution Opaque) := none
  lateCompletedTurnIds : List Text := []
  activeSegment : Option (Segment Opaque N) := none
  survivors : List (Segment Opaque N) := []

def turnIdsAreCompatible (active item : Option Text) : Bool :=
  active.all fun turnId => item.all (· == turnId)

/-- The full snapshots of a segment, newest first, up to its newest compaction. -/
def hasFullSnapshot : List (RolloutItem Opaque N) → Bool
  | [] => false
  | .compacted _ :: _ => false
  | .worldState true _ :: _ => true
  | _ :: rest => hasFullSnapshot rest

def finalizeActiveSegment (segment : Segment Opaque N) (s : Scan Opaque N) : Scan Opaque N :=
  if 0 < s.pendingRollbackTurns then
    if segment.countsAsUserTurn then
      { s with pendingRollbackTurns := s.pendingRollbackTurns - 1 }
    else s
  else
    let hasContextBaseline := segment.countsAsUserTurn || hasFullSnapshot segment.worldStateReplay
    { s with
      worldStateReplay := s.worldStateReplay ++ segment.worldStateReplay
      historyCheckpoint := s.historyCheckpoint.or segment.historyCheckpoint
      window := s.window.or segment.window
      previousTurnSettings :=
        if hasContextBaseline then s.previousTurnSettings.or segment.previousTurnSettings
        else s.previousTurnSettings
      referenceContextItem :=
        if hasContextBaseline || segment.referenceContextItem matches .cleared then
          s.referenceContextItem.orElse segment.referenceContextItem
        else s.referenceContextItem
      turnAttribution := s.turnAttribution.or segment.turnAttribution
      survivors := segment :: s.survivors }

/-- `take_checkpoint_attribution`: a matching checkpoint is consumed in any case. -/
def takeCheckpointAttribution (segment : Segment Opaque N)
    (checkpoint : Option (TurnAttribution Opaque)) :
    Segment Opaque N × Option (TurnAttribution Opaque) :=
  if checkpoint.any fun attribution => segment.turnId.all (· == attribution.turnId) then
    ({ segment with turnAttribution := segment.turnAttribution.or checkpoint }, none)
  else (segment, checkpoint)

variable (s : Scan Opaque N)

/-- An update of the active segment, which is created if there is none. -/
def Scan.updateActive (f : Segment Opaque N → Segment Opaque N) :
    Scan Opaque N :=
  { s with activeSegment := some (f (s.activeSegment.getD {})) }

/-- The part of a compaction in the scan. -/
def Segment.addCompacted (c : CompactedItem Opaque)
    (suffix : List (RolloutItem Opaque N)) (segment : Segment Opaque N) : Segment Opaque N :=
  { segment with
    worldStateReplay := segment.worldStateReplay ++ [.compacted c]
    window := segment.window.or (windowFromCompaction srv c)
    referenceContextItem := segment.referenceContextItem.orElse .cleared
    historyCheckpoint :=
      if c.replacementHistory.isSome then segment.historyCheckpoint.or (some ⟨c, suffix⟩)
      else segment.historyCheckpoint }

/-- The part of a turn context in the scan. -/
def Segment.addTurnContext (ctx : TurnContextItem Opaque) (segment : Segment Opaque N) :
    Segment Opaque N :=
  let turnId := segment.turnId.or ctx.turnId
  if turnIdsAreCompatible turnId ctx.turnId then
    { segment with
      turnId
      previousTurnSettings := some ctx.settings
      referenceContextItem := segment.referenceContextItem.orElse (.latest ctx) }
  else { segment with turnId }

/-- Explicit start attribution is authoritative. -/
def Scan.attribute (turnId : Text)
    (attribution : Option (TurnAttribution Opaque)) : Scan Opaque N :=
  match attribution with
  | some a =>
    if a.turnId = turnId then
      s.updateActive fun segment =>
        if turnIdsAreCompatible segment.turnId (some turnId) then
          { segment with turnAttribution := some a }
        else segment
    else s
  | none => s

/-- The active segment ends at the start of its turn, if it can be this turn's. -/
def Scan.endSegment (turnId : Text) : Scan Opaque N :=
  match s.activeSegment with
  | some segment =>
    if turnIdsAreCompatible segment.turnId (some turnId) then
      let segment := { segment with turnId := segment.turnId.or (some turnId) }
      let (segment, checkpoint) := takeCheckpointAttribution segment s.checkpointAttribution
      finalizeActiveSegment segment
        { s with activeSegment := none, checkpointAttribution := checkpoint }
    else s
  | none => s

/-- The oldest item of a turn. -/
def Scan.turnStarted (turnId : Text)
    (attribution : Option (TurnAttribution Opaque)) : Scan Opaque N :=
  let s := { s with startedTurnIds := s.startedTurnIds.tail }
  (s.attribute turnId attribution).endSegment turnId

/-- An aborted turn names the active segment, or starts one if it is named itself. -/
def Scan.turnAborted (turnId : Option Text) : Scan Opaque N :=
  match s.activeSegment with
  | some segment =>
    { s with activeSegment := some { segment with turnId := segment.turnId.or turnId } }
  | none => { s with activeSegment := turnId.map fun turnId => { turnId := some turnId } }

/-- One item of the reverse scan; the items behind it are already scanned. -/
def scanItem (checkpointTurnId : Option Text)
    (item : RolloutItem Opaque N) (suffix : List (RolloutItem Opaque N)) (s : Scan Opaque N) :
    Scan Opaque N :=
  let precedingTurnId := s.startedTurnIds.head?.or checkpointTurnId
  match item with
  | .compacted c => s.updateActive (·.addCompacted srv c suffix)
  -- saturates at `usize::MAX`, which no number of turns reaches
  | .threadRolledBack numTurns =>
    { s with pendingRollbackTurns := s.pendingRollbackTurns + numTurns }
  | .turnComplete turnId =>
    -- stop hooks can finish after a newer turn has started
    if turnIdsAreCompatible precedingTurnId (some turnId) then
      s.updateActive fun segment =>
        { segment with turnCompleted := true, turnId := segment.turnId.or (some turnId) }
    else { s with lateCompletedTurnIds := turnId :: s.lateCompletedTurnIds }
  | .turnAborted turnId =>
    if turnIdsAreCompatible precedingTurnId turnId then s.turnAborted turnId else s
  | .userMessage => s.updateActive fun segment => { segment with countsAsUserTurn := true }
  | .turnContext ctx => s.updateActive (·.addTurnContext ctx)
  | .worldState full state =>
    s.updateActive fun segment =>
      { segment with worldStateReplay := segment.worldStateReplay ++ [.worldState full state] }
  | .turnStarted turnId attribution => s.turnStarted turnId attribution
  | .responseItem e =>
    s.updateActive fun segment =>
      { segment with
        countsAsUserTurn :=
          segment.countsAsUserTurn || isUserTurnBoundary srv.recognizers e.item
        userMessages :=
          if isUserTurnBoundary srv.recognizers e.item then e :: segment.userMessages
          else segment.userMessages }
  | .interAgentCommunication item =>
    s.updateActive fun segment =>
      { segment with
        countsAsUserTurn := true
        userMessages := .new item :: segment.userMessages }
  | .sessionMeta _ | .other => s

/-- The scan over all items, from the newest one to the oldest one. -/
def scan (srv : ReplayServices Opaque) (checkpointTurnId : Option Text) (s : Scan Opaque N) :
    List (RolloutItem Opaque N) → Scan Opaque N
  | [] => s
  | item :: suffix =>
    scanItem srv checkpointTurnId item suffix (scan srv checkpointTurnId s suffix)

/-- The turn that an item starts. -/
def RolloutItem.startedTurnId? : RolloutItem Opaque N → Option Text
  | .turnStarted turnId _ => some turnId
  | _ => none

/-- The turns that the items start, newest first. -/
def startedTurnIds (items : List (RolloutItem Opaque N)) : List Text :=
  items.reverse.filterMap RolloutItem.startedTurnId?

/-- The segment that is still open when the scan ends. -/
def Scan.finish (checkpointTurnId : Option Text) (resumed : Bool) :
    Scan Opaque N :=
  match s.activeSegment with
  | none => s
  | some segment =>
    let (segment, checkpoint) := takeCheckpointAttribution segment s.checkpointAttribution
    let completed := segment.turnCompleted
      || (segment.turnId.or checkpointTurnId).any s.lateCompletedTurnIds.contains
    let segment := { segment with
      turnCompleted := completed
      previousTurnSettings :=
        if resumed && !completed then none else segment.previousTurnSettings }
    finalizeActiveSegment segment
      { s with activeSegment := none, checkpointAttribution := checkpoint }

/-! ## The forward replay -/

/-- The history during the replay, and whether a compaction had no replacement history. -/
structure Replay (Opaque N : Type) where
  history : ContextManager Opaque (TurnContextItem Opaque) (WorldStateSnapshot N) := {}
  sawLegacyCompaction : Bool := false

/-- One item of the forward replay. -/
def replayItem (r : Replay Opaque N) :
    RolloutItem Opaque N → Replay Opaque N
  | .responseItem e => { r with history := r.history.recordItem srv.toServices e }
  | .interAgentCommunication item =>
    { r with history := r.history.recordItem srv.toServices (.new item) }
  | .compacted c =>
    -- a newer replacement compaction belongs to a turn that is rolled back
    if c.replacementHistory.isSome then r
    else
      { history := r.history.replaceAnnotated (srv.rebuildCompacted r.history.items c.message)
        sawLegacyCompaction := true }
  | .threadRolledBack numTurns =>
    { r with history := r.history.dropLastNUserTurns srv.toServices numTurns }
  | .sessionMeta _ | .turnContext _ | .worldState .. | .turnStarted .. | .turnComplete _
  | .turnAborted _ | .userMessage | .other => r

/-- The history from the selected compaction and the items behind it. -/
def replayHistory (checkpoint : Option (ReplayCheckpoint Opaque N))
    (items : List (RolloutItem Opaque N)) : Replay Opaque N :=
  match checkpoint with
  | some ⟨c, suffix⟩ =>
    suffix.foldl (replayItem srv)
      { history := match c.replacementHistory with
          | some items => ContextManager.replaceAnnotated {} items
          | none => {} }
  | none => items.foldl (replayItem srv) {}

variable [DecidableEq N]

/-- One record of the world state. -/
def replayRecord (baseline : Option (WorldStateSnapshot N)) :
    RolloutItem Opaque N → Option (WorldStateSnapshot N)
  | .compacted _ => none
  | .worldState true state => some state
  | .worldState false patch => baseline.map fun baseline => applyMergePatch baseline patch
  -- only world-state records and compactions are collected
  | _ => baseline

/-! ## All together -/

/-- `RolloutReconstruction`, with the segments that were not skipped. -/
structure RolloutReconstruction (Opaque N : Type) where
  history : List (Envelope Opaque)
  lastStartedTurnId : Option Text
  previousTurnSettings : Option (PreviousTurnSettings Opaque)
  referenceContextItem : Option (TurnContextItem Opaque)
  turnAttribution : Option (TurnAttribution Opaque)
  worldStateBaseline : Option (WorldStateSnapshot N)
  window : ReconstructedWindow
  survivors : List (Segment Opaque N)

/-- The window of the session itself, unless some compaction has no number. -/
def initialWindow (items : List (RolloutItem Opaque N)) : Option ReconstructedWindow :=
  if items.any fun
      | .compacted c => c.windowNumber.isNone
      | _ => false then none
  else items.findSome? fun
    | .sessionMeta contextWindow => contextWindow.bind (windowFromSession srv)
    | _ => none

def reconstructRollout (srv : ReplayServices Opaque) (paginated : Bool)
    (items : List (RolloutItem Opaque N)) : RolloutReconstruction Opaque N :=
  let input := selectInputCompaction items paginated
  let replayItems := (input.map (·.suffix)).getD items
  let resume := input.bind (·.compacted.resumeMetadata)
  let checkpointTurnId := resume.bind fun metadata =>
    metadata.lastStartedTurnId.or (metadata.turnAttribution.map (·.turnId))
  let start : Scan Opaque N :=
    { startedTurnIds := startedTurnIds replayItems
      historyCheckpoint := input
      window := input.bind fun checkpoint => windowFromCompaction srv checkpoint.compacted
      checkpointAttribution := resume.bind (·.turnAttribution) }
  let s := (scan srv checkpointTurnId start replayItems).finish checkpointTurnId resume.isSome
  let replay := replayHistory srv s.historyCheckpoint items
  { history := replay.history.items
    lastStartedTurnId :=
      (startedTurnIds replayItems).head?.or (resume.bind (·.lastStartedTurnId))
    previousTurnSettings := s.previousTurnSettings.or (resume.bind (·.previousTurnSettings))
    referenceContextItem :=
      if replay.sawLegacyCompaction then none else s.referenceContextItem.latest?
    turnAttribution :=
      if s.pendingRollbackTurns = 0 then s.turnAttribution.or s.checkpointAttribution
      else s.turnAttribution
    worldStateBaseline := s.worldStateReplay.reverse.foldl replayRecord none
    window := (s.window.or (initialWindow srv items)).getD
      { number := items.countP fun
          | .compacted _ => true
          | _ => false }
    survivors := s.survivors }

/-- Services that recognise nothing. -/
def plainReplayServices : ReplayServices Unit where
  toServices := ContextManager.plainServices
  rebuildCompacted items _ := items
  parseUuidV7 _ := none

end Rollout
