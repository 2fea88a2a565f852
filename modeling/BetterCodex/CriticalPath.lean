/-
# Critical paths of a turn

Model of `codex-rs/utils/critical-path/src/lib.rs`.  A path is the chain of its nodes, the
latest first; instants and durations are numbers of nanoseconds.
-/
import Mathlib

namespace CriticalPaths

inductive WorkKind where
  | inference
  | autoReview
  | userWait
  | tools
  | overhead
  | unknown
  deriving DecidableEq, Repr

def maxPathDepth : ℕ := 16384

/-- `Node`, without the path before it. -/
structure Node where
  kind : WorkKind
  start : ℕ
  stop : ℕ
  origin : ℕ
  depth : ℕ
  deriving DecidableEq, Repr

abbrev CriticalPath := List Node

/-- `PathDurations`, as the durations that were recorded. -/
structure PathDurations where
  inference : ℕ := 0
  autoReview : ℕ := 0
  userWait : ℕ := 0
  tools : ℕ := 0
  overhead : ℕ := 0
  unknown : ℕ := 0
  deriving DecidableEq, Repr

def PathDurations.record (totals : PathDurations) (kind : WorkKind) (duration : ℕ) : PathDurations :=
  match kind with
  | .inference => { totals with inference := totals.inference + duration }
  | .autoReview => { totals with autoReview := totals.autoReview + duration }
  | .userWait => { totals with userWait := totals.userWait + duration }
  | .tools => { totals with tools := totals.tools + duration }
  | .overhead => { totals with overhead := totals.overhead + duration }
  | .unknown => { totals with unknown := totals.unknown + duration }

namespace CriticalPath

variable (path : CriticalPath)

/-- `end`. -/
def stop : Option ℕ := path.head?.map Node.stop

/-- `latest`; no end comes before every end. -/
def latest (path other : CriticalPath) : CriticalPath :=
  match other.stop, path.stop with
  | some otherStop, some pathStop => if pathStop < otherStop then other else path
  | some _, none => other
  | none, _ => path

/-- `work` on the empty path. -/
def workFirst (start stop : ℕ) (kind : WorkKind) : CriticalPath :=
  if stop ≤ start then [] else [⟨kind, start, stop, start, 1⟩]

def work (start stop : ℕ) (kind : WorkKind) : CriticalPath :=
  match path with
  | [] => workFirst start stop kind
  | node :: _ =>
    let start := max node.stop start
    if stop ≤ start then path
    else if node.depth + 1 > maxPathDepth then workFirst node.origin stop .unknown
    else ⟨kind, start, stop, node.origin, node.depth + 1⟩ :: path

def join (start stop : ℕ) (dependency : CriticalPath) : CriticalPath :=
  let path := path.latest dependency
  path.work (max (path.stop.getD start) start) stop .tools

/-- The loop of `durations`. -/
def durationsFrom (start : ℕ) : CriticalPath → ℕ → PathDurations → PathDurations
  | [], stop, totals => if start < stop then totals.record .overhead (stop - start) else totals
  | node :: path, stop, totals =>
    if stop ≤ start then totals
    else
      let segmentStop := min stop node.stop
      let segmentStart := max start node.start
      let totals := if node.stop < stop then totals.record .overhead (stop - max start node.stop)
        else totals
      let totals := if segmentStart < segmentStop then
          totals.record node.kind (segmentStop - segmentStart)
        else totals
      durationsFrom start path (min stop node.start) totals

def durations (start stop : ℕ) : PathDurations :=
  durationsFrom start path stop {}

/-- Where the first segment starts. -/
def firstStart : Option ℕ := path.getLast?.map Node.start

end CriticalPath

open CriticalPath

/-- The paths that the operations make. -/
inductive Built : CriticalPath → Prop
  | empty : Built []
  | work {path : CriticalPath} (h : Built path) (start stop : ℕ) (kind : WorkKind) :
      Built (path.work start stop kind)
  | latest {path other : CriticalPath} (h : Built path) (h' : Built other) : Built (path.latest other)
  | join {path dependency : CriticalPath} (h : Built path) (h' : Built dependency) (start stop : ℕ) :
      Built (path.join start stop dependency)

/-- Every segment has a length, none starts before the origin, and the origin is where the path
starts. -/
structure WellFormed (path : CriticalPath) : Prop where
  nodes : ∀ node ∈ path, node.origin ≤ node.start ∧ node.start < node.stop
  origin : path.head?.map Node.origin = path.firstStart

theorem wellFormed_workFirst (start stop : ℕ) (kind : WorkKind) : WellFormed (workFirst start stop kind) := by
  unfold workFirst
  split_ifs with h
  · exact ⟨nofun, rfl⟩
  · exact ⟨List.forall_mem_singleton.2 ⟨le_rfl, Nat.lt_of_not_le h⟩, rfl⟩

variable {path : CriticalPath}

theorem WellFormed.work (h : WellFormed path) (start stop : ℕ) (kind : WorkKind) :
    WellFormed (path.work start stop kind) := by
  cases path with
  | nil => exact wellFormed_workFirst start stop kind
  | cons node path =>
    rw [CriticalPath.work]
    split_ifs with hempty hdeep
    · exact h
    · exact wellFormed_workFirst _ _ _
    · have hnode := h.nodes node (.head _)
      refine ⟨List.forall_mem_cons.2 ⟨⟨?_, Nat.lt_of_not_le hempty⟩, h.nodes⟩, ?_⟩
      · show node.origin ≤ max node.stop start
        omega
      · exact h.origin.trans (congrArg (Option.map Node.start) List.getLast?_cons_cons.symm)

theorem latest_cases (path other : CriticalPath) : path.latest other = path ∨ path.latest other = other := by
  unfold CriticalPath.latest
  split
  · split_ifs
    · exact .inr rfl
    · exact .inl rfl
  · exact .inr rfl
  · exact .inl rfl

theorem WellFormed.latest {other : CriticalPath} (h : WellFormed path) (h' : WellFormed other) :
    WellFormed (path.latest other) := by
  rcases latest_cases path other with heq | heq
  · rw [heq]
    exact h
  · rw [heq]
    exact h'

theorem Built.wellFormed (h : Built path) : WellFormed path := by
  induction h with
  | empty => exact ⟨nofun, rfl⟩
  | work _ start stop kind ih => exact ih.work start stop kind
  | latest _ _ ih ih' => exact ih.latest ih'
  | join _ _ start stop ih ih' => exact (ih.latest ih').work _ stop _

/-- The durations of all categories. -/
def PathDurations.total (totals : PathDurations) : ℕ :=
  totals.inference + totals.autoReview + totals.userWait + totals.tools + totals.overhead + totals.unknown

theorem PathDurations.total_record (totals : PathDurations) (kind : WorkKind) (duration : ℕ)
    (c : Prop) [Decidable c] : (if c then totals.record kind duration else totals).total =
      totals.total + if c then duration else 0 := by
  split_ifs
  · cases kind <;> simp only [record, total] <;> omega
  · rfl

/-- What is recorded from the back is what lies behind the segments still to come. -/
theorem total_durationsFrom (hnodes : ∀ node ∈ path, node.origin ≤ node.start ∧ node.start < node.stop) (start stop : ℕ)
    (totals : PathDurations) :
    (durationsFrom start path stop totals).total = totals.total + (stop - start) := by
  induction path generalizing stop totals with
  | nil =>
    rw [durationsFrom, totals.total_record]
    split_ifs <;> omega
  | cons node path ih =>
    obtain ⟨hnode, hrest⟩ := List.forall_mem_cons.1 hnodes
    rw [durationsFrom]
    by_cases hdone : stop ≤ start
    · rw [if_pos hdone]
      omega
    · rw [if_neg hdone, ih hrest, PathDurations.total_record, PathDurations.total_record]
      split_ifs <;> omega

/-- **The categories share the whole interval, and a collapse keeps both ends of the path.** -/
theorem durations_exact (path : {path : CriticalPath // Built path}) :
    (∀ start stop, start ≤ stop → (path.1.durations start stop).total = stop - start) ∧
      ∀ node rest, path.1 = node :: rest → maxPathDepth < node.depth + 1 →
        ∀ start stop kind, max node.stop start < stop →
          (path.1.work start stop kind).firstStart = path.1.firstStart ∧
            (path.1.work start stop kind).stop = some stop := by
  obtain ⟨path, hbuilt⟩ := path
  obtain ⟨hnodes, horigin⟩ := hbuilt.wellFormed
  refine ⟨fun start stop _ => (total_durationsFrom hnodes start stop {}).trans (Nat.zero_add _), ?_⟩
  rintro node rest rfl hdeep start stop kind hlater
  have hnode : node.origin < stop := by
    have := hnodes node (.head _)
    omega
  simp only [CriticalPath.work, if_neg (Nat.not_le.2 hlater), if_pos hdeep, workFirst,
    if_neg (Nat.not_le.2 hnode)]
  exact ⟨horigin, rfl⟩

end CriticalPaths
