/-
# Stage-1 memory jobs

Workers claim the memory job of a thread for a source time, and finish it with a success or a
failure.  Every transaction is one step on the tables; a claim brings a fresh ownership token.
-/
import BetterCodex.RustStr
import BetterCodex.SortedMap

namespace MemoryJobs

open RustStr List SortedMap Option

/-! ## The tables -/

/-- The `status` of a job. -/
inductive Status
  | pending
  | running
  | done
  | error
  deriving DecidableEq, Repr

/-- A row of `jobs`. -/
structure JobRow where
  status : Status
  workerId : Option Text
  ownershipToken : Option Text
  startedAt : Option ℤ
  finishedAt : Option ℤ
  leaseUntil : Option ℤ
  retryAt : Option ℤ
  retryRemaining : ℤ
  lastError : Option Text
  inputWatermark : Option ℤ
  lastSuccessWatermark : Option ℤ
  deriving DecidableEq, Repr

/-- A row of `stage1_outputs`. -/
structure OutputRow where
  sourceUpdatedAt : ℤ
  rawMemory : Text
  rolloutSummary : Text
  rolloutSlug : Option Text
  generatedAt : ℤ
  deriving DecidableEq, Repr

/-- The jobs of kind `memory_stage1` by thread, the outputs by thread, and the job of kind
`memory_consolidate_global`. -/
structure Tables where
  stage1 : List (Text × JobRow) := []
  outputs : List (Text × OutputRow) := []
  consolidation : Option JobRow := none
  deriving DecidableEq, Repr

variable (t : Tables)

/-- The tables with the row of one stage-1 job set. -/
def Tables.setJob (threadId : Text) (row : JobRow) : Tables :=
  { t with stage1 := insert threadId row t.stage1 }

def defaultRetryRemaining : ℤ := 3

def i64Max : ℤ := 2 ^ 63 - 1

/-- `saturating_add` of something that is not negative. -/
def saturatingAdd (a b : ℤ) : ℤ := min (a + b) i64Max

/-- `as i64` of a `usize`. -/
def asI64 (n : ℕ) : ℤ := if n < 2 ^ 63 then n else n - 2 ^ 64

variable (row : JobRow)

/-- A running job with a lease that has not expired. -/
def JobRow.holdsLease (now : ℤ) : Bool :=
  row.status = .running && row.leaseUntil.any fun leaseUntil => now < leaseUntil

/-- How many jobs hold a lease. -/
def runningJobs (now : ℤ) (jobs : List (Text × JobRow)) : ℕ :=
  total (fun row => if row.holdsLease now then 1 else 0) jobs

/-! ## Claims -/

/-- `Stage1JobClaimOutcome`. -/
inductive ClaimOutcome
  | claimed (ownershipToken : Text)
  | skippedUpToDate
  | skippedRunning
  | skippedRetryBackoff
  | skippedRetryExhausted
  deriving DecidableEq, Repr

/-- The row that a claim inserts. -/
def JobRow.new (workerId ownershipToken : Text) (now leaseUntil sourceUpdatedAt : ℤ) : JobRow where
  status := .running
  workerId := some workerId
  ownershipToken := some ownershipToken
  startedAt := some now
  finishedAt := none
  leaseUntil := some leaseUntil
  retryAt := none
  retryRemaining := defaultRetryRemaining
  lastError := none
  inputWatermark := some sourceUpdatedAt
  lastSuccessWatermark := none

/-- The source is newer than the input of the job: `> COALESCE(input_watermark, -1)`. -/
def JobRow.advances (sourceUpdatedAt : ℤ) : Bool :=
  row.inputWatermark.getD (-1) < sourceUpdatedAt

/-- The conditions of `DO UPDATE` on the row itself. -/
def JobRow.claimable (now sourceUpdatedAt : ℤ) : Bool :=
  (row.status ≠ .running || row.leaseUntil.all fun leaseUntil => leaseUntil ≤ now) &&
    ((row.retryAt.all fun retryAt => retryAt ≤ now) || row.advances sourceUpdatedAt) &&
    (0 < row.retryRemaining || row.advances sourceUpdatedAt)

/-- `DO UPDATE SET`. -/
def JobRow.reclaim (workerId ownershipToken : Text) (now leaseUntil sourceUpdatedAt : ℤ) : JobRow :=
  { row with
    status := .running
    workerId := some workerId
    ownershipToken := some ownershipToken
    startedAt := some now
    finishedAt := none
    leaseUntil := some leaseUntil
    retryAt := none
    retryRemaining :=
      if row.advances sourceUpdatedAt then defaultRetryRemaining else row.retryRemaining
    lastError := none
    inputWatermark := some sourceUpdatedAt }

/-- Why a claim was not granted. -/
def skipReason (row : Option JobRow) (now : ℤ) : ClaimOutcome :=
  match row with
  | none => .skippedRunning
  | some row =>
    if row.retryRemaining ≤ 0 then .skippedRetryExhausted
    else if row.retryAt.any fun retryAt => now < retryAt then .skippedRetryBackoff
    else .skippedRunning

/-- A request for the job of a thread. -/
structure ClaimRequest where
  threadId : Text
  workerId : Text
  sourceUpdatedAt : ℤ
  leaseSeconds : ℤ
  maxRunningJobs : ℕ

/-- `try_claim_stage1_job`, at a time and with a fresh token. -/
def tryClaimStage1Job (now : ℤ) (token : Text) (request : ClaimRequest) : ClaimOutcome × Tables :=
  let leaseUntil := saturatingAdd now (max request.leaseSeconds 0)
  let limit := asI64 request.maxRunningJobs
  let job := get request.threadId t.stage1
  if (get request.threadId t.outputs).any fun output =>
      request.sourceUpdatedAt ≤ output.sourceUpdatedAt then (.skippedUpToDate, t)
  else if job.any fun row =>
      row.lastSuccessWatermark.any fun watermark => request.sourceUpdatedAt ≤ watermark then
    (.skippedUpToDate, t)
  else if (runningJobs now t.stage1 : ℤ) < limit then
    match job with
    | none =>
      (.claimed token, t.setJob request.threadId
        (.new request.workerId token now leaseUntil request.sourceUpdatedAt))
    | some row =>
      -- the count of the update leaves the job itself out
      if row.claimable now request.sourceUpdatedAt &&
          ((runningJobs now (erase request.threadId t.stage1) : ℤ) < limit) then
        (.claimed token, t.setJob request.threadId
          (row.reclaim request.workerId token now leaseUntil request.sourceUpdatedAt))
      else (skipReason job now, t)
  else (skipReason job now, t)

/-! ## Completions and failures -/

/-- `status = 'running' AND ownership_token = ?`. -/
def JobRow.owned (token : Text) : Bool :=
  row.status = .running && row.ownershipToken = some token

/-- The running job of a thread, if the token owns it. -/
def Tables.ownedJob (threadId token : Text) : Option JobRow :=
  (get threadId t.stage1).filter fun row => row.owned token

/-- A job that is done. -/
def JobRow.succeed (now : ℤ) : JobRow :=
  { row with
    status := .done
    finishedAt := some now
    leaseUntil := none
    lastError := none
    lastSuccessWatermark := row.inputWatermark }

/-- A job that failed. -/
def JobRow.fail (now retryAt : ℤ) (failureReason : Text) : JobRow :=
  { row with
    status := .error
    finishedAt := some now
    leaseUntil := none
    retryAt := some retryAt
    retryRemaining := row.retryRemaining - 1
    lastError := some failureReason }

/-- `enqueue_global_consolidation_with_executor`. -/
def enqueueGlobalConsolidation (job : Option JobRow) (inputWatermark : ℤ) : JobRow :=
  match job with
  | none => {
      status := .pending
      workerId := none
      ownershipToken := none
      startedAt := none
      finishedAt := none
      leaseUntil := none
      retryAt := none
      retryRemaining := defaultRetryRemaining
      lastError := none
      inputWatermark := some inputWatermark
      lastSuccessWatermark := some 0 }
  | some row =>
    { row with
      status := if row.status = .running then .running else .pending
      retryAt := if row.status = .running then row.retryAt else none
      retryRemaining := max row.retryRemaining defaultRetryRemaining
      inputWatermark := some (if row.inputWatermark.getD 0 < inputWatermark then inputWatermark
        else row.inputWatermark.getD 0 + 1) }

/-- The upsert of `stage1_outputs`: an older output does not replace a newer one. -/
def upsertOutput (outputs : List (Text × OutputRow)) (threadId : Text) (output : OutputRow) :
    List (Text × OutputRow) :=
  if (get threadId outputs).all fun old => old.sourceUpdatedAt ≤ output.sourceUpdatedAt then
    insert threadId output outputs
  else outputs

def markStage1JobSucceeded (now : ℤ) (threadId token : Text) (sourceUpdatedAt : ℤ)
    (rawMemory rolloutSummary : Text) (rolloutSlug : Option Text) : Bool × Tables :=
  match t.ownedJob threadId token with
  | none => (false, t)
  | some row =>
    (true, {
      stage1 := insert threadId (row.succeed now) t.stage1
      outputs := upsertOutput t.outputs threadId
        ⟨sourceUpdatedAt, rawMemory, rolloutSummary, rolloutSlug, now⟩
      consolidation := some (enqueueGlobalConsolidation t.consolidation sourceUpdatedAt) })

/-- `mark_stage1_job_succeeded_no_output`.  A job without an input watermark is an error, and the
transaction is rolled back. -/
def markStage1JobSucceededNoOutput (now : ℤ) (threadId token : Text) :
    Option Bool × Tables :=
  match t.ownedJob threadId token with
  | none => (some false, t)
  | some row =>
    match row.inputWatermark with
    | none => (none, t)
    | some sourceUpdatedAt =>
      (some true, {
        stage1 := insert threadId (row.succeed now) t.stage1
        outputs := erase threadId t.outputs
        consolidation := if (get threadId t.outputs).isSome then
          some (enqueueGlobalConsolidation t.consolidation sourceUpdatedAt) else t.consolidation })

def markStage1JobFailed (now : ℤ) (threadId token failureReason : Text)
    (retryDelaySeconds : ℤ) : Bool × Tables :=
  match t.ownedJob threadId token with
  | none => (false, t)
  | some row =>
    (true, t.setJob threadId
      (row.fail now (saturatingAdd now (max retryDelaySeconds 0)) failureReason))

/-! ## Steps -/

/-- How a worker finishes a job. -/
inductive Finish
  | succeeded (sourceUpdatedAt : ℤ) (rawMemory rolloutSummary : Text) (rolloutSlug : Option Text)
  | succeededNoOutput
  | failed (failureReason : Text) (retryDelaySeconds : ℤ)

/-- A transaction of some worker, at a time. -/
inductive Step
  | claim (now : ℤ) (token : Text) (request : ClaimRequest)
  | finish (now : ℤ) (threadId token : Text) (how : Finish)

/-- The tables after a finish. -/
def Tables.finish (now : ℤ) (threadId token : Text) : Finish → Tables
  | .succeeded sourceUpdatedAt rawMemory rolloutSummary rolloutSlug =>
    (markStage1JobSucceeded t now threadId token sourceUpdatedAt rawMemory rolloutSummary
      rolloutSlug).2
  | .succeededNoOutput => (markStage1JobSucceededNoOutput t now threadId token).2
  | .failed failureReason retryDelaySeconds =>
    (markStage1JobFailed t now threadId token failureReason retryDelaySeconds).2

/-- The tables after a transaction. -/
def Tables.step : Step → Tables
  | .claim now token request => (tryClaimStage1Job t now token request).2
  | .finish now threadId token how => t.finish now threadId token how

open Tables

/-- The tables after some transactions, from empty ones. -/
def run (steps : List Step) : Tables := steps.foldl step {}

/-! ## What a transaction can do -/

variable {row : JobRow} {now source : ℤ}

theorem JobRow.advances_of_claimable (h : row.claimable now source = true) :
    row.advances source = true ∨ 0 < row.retryRemaining := by
  unfold JobRow.claimable at h
  simp only [Bool.and_eq_true, Bool.or_eq_true, decide_eq_true_eq] at h
  exact h.2.symm

theorem JobRow.retryRemaining_reclaim_pos (h : row.claimable now source = true)
    (workerId token : Text) (leaseUntil : ℤ) :
    0 < (row.reclaim workerId token now leaseUntil source).retryRemaining := by
  show 0 < if row.advances source = true then defaultRetryRemaining else row.retryRemaining
  by_cases hadvances : row.advances source = true
  · rw [if_pos hadvances]
    decide
  · rw [if_neg hadvances]
    exact (advances_of_claimable h).resolve_left hadvances

/-- A claim that is granted for a source sets this row. -/
structure Granted (t : Tables) (now : ℤ) (token : Text) (request : ClaimRequest) (row : JobRow) :
    Prop where
  outcome : (tryClaimStage1Job t now token request).1 = .claimed token
  tables : (tryClaimStage1Job t now token request).2 = t.setJob request.threadId row
  running : row.status = .running
  owner : row.ownershipToken = some token
  retries : 0 < row.retryRemaining
  input : row.inputWatermark = some request.sourceUpdatedAt
  success : row.lastSuccessWatermark =
    (SortedMap.get request.threadId t.stage1).bind JobRow.lastSuccessWatermark
  newer : ∀ watermark ∈ row.lastSuccessWatermark, watermark < request.sourceUpdatedAt
  others : (runningJobs now (SortedMap.erase request.threadId t.stage1) : ℤ) <
    asI64 request.maxRunningJobs

theorem skipReason_ne_claimed (row : Option JobRow) (now : ℤ) (token : Text) :
    skipReason row now ≠ .claimed token := by
  unfold skipReason
  split
  · nofun
  · split_ifs <;> nofun

/-- **A claim** changes nothing, or it is granted: for a source beyond the last success, with fewer
other leases than the limit, and with retries left. -/
theorem claim_cases (now : ℤ) (token : Text) (request : ClaimRequest) :
    ((tryClaimStage1Job t now token request).2 = t ∧
        ∀ other, (tryClaimStage1Job t now token request).1 ≠ .claimed other) ∨
      ∃ row, Granted t now token request row := by
  by_cases houtput : ((get request.threadId t.outputs).any fun output =>
      decide (request.sourceUpdatedAt ≤ output.sourceUpdatedAt)) = true
  · left
    unfold tryClaimStage1Job
    rw [if_pos houtput]
    exact ⟨rfl, nofun⟩
  by_cases hjob : ((get request.threadId t.stage1).any fun row =>
      row.lastSuccessWatermark.any fun watermark => decide (request.sourceUpdatedAt ≤ watermark)) = true
  · left
    unfold tryClaimStage1Job
    rw [if_neg houtput, if_pos hjob]
    exact ⟨rfl, nofun⟩
  by_cases hcount : (runningJobs now t.stage1 : ℤ) < asI64 request.maxRunningJobs
  swap
  · left
    unfold tryClaimStage1Job
    rw [if_neg houtput, if_neg hjob, if_neg hcount]
    exact ⟨rfl, skipReason_ne_claimed _ _⟩
  cases hrow : get request.threadId t.stage1 with
  | none =>
    right
    have heq : tryClaimStage1Job t now token request = (.claimed token, t.setJob request.threadId
        (.new request.workerId token now (saturatingAdd now (max request.leaseSeconds 0))
          request.sourceUpdatedAt)) := by
      unfold tryClaimStage1Job
      rw [if_neg houtput, if_neg hjob, if_pos hcount, hrow]
    refine ⟨_, congrArg Prod.fst heq, congrArg Prod.snd heq, rfl, rfl, ?_, rfl, ?_, nofun, ?_⟩
    · show 0 < defaultRetryRemaining
      decide
    · rw [hrow]
      rfl
    · rwa [erase_of_get_eq_none hrow]
  | some row =>
    by_cases hclaim : (row.claimable now request.sourceUpdatedAt &&
        decide ((runningJobs now (erase request.threadId t.stage1) : ℤ) <
          asI64 request.maxRunningJobs)) = true
    swap
    · left
      unfold tryClaimStage1Job
      rw [if_neg houtput, if_neg hjob, if_pos hcount, hrow]
      dsimp only
      rw [if_neg hclaim]
      exact ⟨rfl, skipReason_ne_claimed (some row) now⟩
    right
    obtain ⟨hclaimable, hothers⟩ := Bool.and_eq_true_iff.1 hclaim
    have heq : tryClaimStage1Job t now token request = (.claimed token, t.setJob request.threadId
        (row.reclaim request.workerId token now (saturatingAdd now (max request.leaseSeconds 0))
          request.sourceUpdatedAt)) := by
      unfold tryClaimStage1Job
      rw [if_neg houtput, if_neg hjob, if_pos hcount, hrow]
      dsimp only
      rw [if_pos hclaim]
    refine ⟨_, congrArg Prod.fst heq, congrArg Prod.snd heq, rfl, rfl,
      JobRow.retryRemaining_reclaim_pos hclaimable _ _ _, rfl, ?_, ?_, of_decide_eq_true hothers⟩
    · rw [hrow]
      rfl
    · intro watermark hwatermark
      by_contra hle
      apply hjob
      rw [hrow, Option.any_some, Option.any_eq_true]
      exact ⟨watermark, hwatermark, decide_eq_true (not_lt.1 hle)⟩

/-- What finishing does to the row of the job. -/
inductive Finished (row : JobRow) : JobRow → Prop
  | succeed (now : ℤ) : Finished row (row.succeed now)
  | fail (now retryAt : ℤ) (failureReason : Text) : Finished row (row.fail now retryAt failureReason)

/-- **A finish** changes nothing, or the token owns the running job. -/
theorem finish_cases (now : ℤ) (threadId token : Text) (how : Finish) :
    t.finish now threadId token how = t ∨
      ∃ row row', t.ownedJob threadId token = some row ∧ Finished row row' ∧
        (t.finish now threadId token how).stage1 = insert threadId row' t.stage1 := by
  cases howned : t.ownedJob threadId token with
  | none =>
    left
    cases how with
    | succeeded => simp only [finish, markStage1JobSucceeded, howned]
    | succeededNoOutput => simp only [finish, markStage1JobSucceededNoOutput, howned]
    | failed => simp only [finish, markStage1JobFailed, howned]
  | some row =>
    cases how with
    | succeeded source raw summary slug =>
      refine .inr ⟨row, _, rfl, .succeed now, ?_⟩
      simp only [finish, markStage1JobSucceeded, howned]
    | succeededNoOutput =>
      cases hinput : row.inputWatermark with
      | none =>
        left
        simp only [finish, markStage1JobSucceededNoOutput, howned, hinput]
      | some source =>
        refine .inr ⟨row, _, rfl, .succeed now, ?_⟩
        simp only [finish, markStage1JobSucceededNoOutput, howned, hinput]
    | failed reason delay =>
      refine .inr ⟨row, _, rfl, .fail now (saturatingAdd now (max delay 0)) reason, ?_⟩
      simp only [finish, markStage1JobFailed, howned, setJob]

variable {t : Tables} {threadId token : Text}

theorem ownedJob_eq_some (h : t.ownedJob threadId token = some row) :
    get threadId t.stage1 = some row ∧ row.status = .running ∧
      row.ownershipToken = some token := by
  obtain ⟨hget, howned⟩ := filter_eq_some_iff.1 h
  unfold JobRow.owned at howned
  simp only [Bool.and_eq_true, decide_eq_true_eq] at howned
  exact ⟨hget, howned⟩

/-! ## What holds of the rows -/

/-- A running job has retries left and an input beyond its last success. -/
structure RowOk (row : JobRow) : Prop where
  retries_nonneg : 0 ≤ row.retryRemaining
  retries_pos : row.status = .running → 0 < row.retryRemaining
  ahead : row.status = .running →
    ∃ input, row.inputWatermark = some input ∧ ∀ watermark ∈ row.lastSuccessWatermark, watermark < input

/-- What holds after any steps. -/
structure TablesOk (t : Tables) : Prop where
  sorted : SortedMap.Sorted t.stage1
  rows : ∀ threadId row, SortedMap.get threadId t.stage1 = some row → RowOk row

variable {request : ClaimRequest}

theorem Granted.rowOk (h : Granted t now token request row) : RowOk row where
  retries_nonneg := h.retries.le
  retries_pos := fun _ => h.retries
  ahead := fun _ => ⟨_, h.input, h.newer⟩

variable {row' : JobRow}

theorem RowOk.finished (h : RowOk row) (hrunning : row.status = .running)
    (hfinished : Finished row row') : RowOk row' := by
  have hpos := h.retries_pos hrunning
  cases hfinished with
  | succeed now => exact ⟨h.retries_nonneg, nofun, nofun⟩
  | fail now retryAt reason =>
    refine ⟨?_, nofun, nofun⟩
    show 0 ≤ row.retryRemaining - 1
    omega

theorem TablesOk.set {t' : Tables} (h : TablesOk t) (hrow : RowOk row)
    (ht' : t'.stage1 = insert threadId row t.stage1) : TablesOk t' := by
  refine ⟨ht' ▸ h.sorted.insert, fun threadId' row' hget => ?_⟩
  rw [ht', get_insert] at hget
  split_ifs at hget with hthread
  · obtain rfl := some.inj hget
    exact hrow
  · exact h.rows _ _ hget

/-- **A transaction keeps the invariant**. -/
theorem TablesOk.step (h : TablesOk t) (s : Step) : TablesOk (t.step s) := by
  cases s with
  | claim now token request =>
    show TablesOk (tryClaimStage1Job t now token request).2
    obtain ⟨hsame, -⟩ | ⟨row, hgranted⟩ := claim_cases t now token request
    · rwa [hsame]
    · exact h.set hgranted.rowOk (congrArg stage1 hgranted.tables)
  | finish now threadId token how =>
    show TablesOk (t.finish now threadId token how)
    obtain hsame | ⟨row, row', howned, hfinished, hstage1⟩ := finish_cases t now threadId token how
    · rwa [hsame]
    · obtain ⟨hget, hrunning, -⟩ := ownedJob_eq_some howned
      exact h.set ((h.rows _ _ hget).finished hrunning hfinished) hstage1

theorem TablesOk.foldl (h : TablesOk t) (steps : List Step) :
    TablesOk (steps.foldl Tables.step t) := by
  induction steps generalizing t with
  | nil => exact h
  | cons s steps ih => exact ih (h.step s)

theorem tablesOk_run (steps : List Step) : TablesOk (run steps) :=
  TablesOk.foldl (t := {}) ⟨.nil, fun _ _ h => nomatch h⟩ steps

/-! ## Watermarks -/

/-- The last success watermark of a job; `⊥` before the first success. -/
def watermarkOf : Option ℤ → WithBot ℤ
  | none => ⊥
  | some watermark => watermark

/-- The last success watermark of a thread. -/
def lastSuccess (t : Tables) (threadId : Text) : WithBot ℤ :=
  watermarkOf ((get threadId t.stage1).bind JobRow.lastSuccessWatermark)

theorem lastSuccess_of_get (h : get threadId t.stage1 = some row) :
    lastSuccess t threadId = watermarkOf row.lastSuccessWatermark := by
  unfold lastSuccess
  rw [h]
  rfl

theorem watermarkOf_lt {watermark : Option ℤ} (h : ∀ w ∈ watermark, w < source) :
    watermarkOf watermark < source := by
  cases watermark with
  | none => exact WithBot.bot_lt_coe source
  | some w => exact WithBot.coe_lt_coe.2 (h w rfl)

/-- Finishing a job that is ahead of its last success moves the watermark forward. -/
theorem RowOk.watermark_le (h : RowOk row) (hrunning : row.status = .running)
    (hfinished : Finished row row') :
    watermarkOf row.lastSuccessWatermark ≤ watermarkOf row'.lastSuccessWatermark := by
  cases hfinished with
  | succeed now =>
    obtain ⟨input, hinput, hahead⟩ := h.ahead hrunning
    show _ ≤ watermarkOf row.inputWatermark
    rw [hinput]
    exact (watermarkOf_lt hahead).le
  | fail now retryAt reason => exact le_refl _

theorem lastSuccess_set {t' : Tables} (ht' : t'.stage1 = insert threadId row t.stage1)
    (hle : lastSuccess t threadId ≤ watermarkOf row.lastSuccessWatermark) (threadId' : Text) :
    lastSuccess t threadId' ≤ lastSuccess t' threadId' := by
  by_cases hthread : threadId' = threadId
  · subst hthread
    rwa [lastSuccess_of_get (t := t') (ht' ▸ get_insert_self)]
  · apply le_of_eq
    unfold lastSuccess
    rw [ht', get_insert_of_ne hthread]

/-- **The watermark of no thread decreases** in a transaction. -/
theorem lastSuccess_step (h : TablesOk t) (s : Step) (threadId : Text) :
    lastSuccess t threadId ≤ lastSuccess (t.step s) threadId := by
  cases s with
  | claim now token request =>
    show _ ≤ lastSuccess (tryClaimStage1Job t now token request).2 threadId
    obtain ⟨hsame, -⟩ | ⟨row, hgranted⟩ := claim_cases t now token request
    · rw [hsame]
    · refine lastSuccess_set (congrArg stage1 hgranted.tables) ?_ threadId
      rw [hgranted.success]
      exact le_refl _
  | finish now threadId' token how =>
    show _ ≤ lastSuccess (t.finish now threadId' token how) threadId
    obtain hsame | ⟨row, row', howned, hfinished, hstage1⟩ := finish_cases t now threadId' token how
    · rw [hsame]
    · obtain ⟨hget, hrunning, -⟩ := ownedJob_eq_some howned
      refine lastSuccess_set hstage1 ?_ threadId
      rw [lastSuccess_of_get hget]
      exact (h.rows _ _ hget).watermark_le hrunning hfinished

theorem lastSuccess_foldl (h : TablesOk t) (steps : List Step) (threadId : Text) :
    lastSuccess t threadId ≤ lastSuccess (steps.foldl step t) threadId := by
  induction steps generalizing t with
  | nil => exact le_refl _
  | cons s steps ih => exact (lastSuccess_step h s threadId).trans (ih (h.step s))

theorem Granted.lastSuccess_lt (h : Granted t now token request row) :
    lastSuccess t request.threadId < request.sourceUpdatedAt := by
  unfold lastSuccess
  rw [← h.success]
  exact watermarkOf_lt h.newer

/-! ## Leases -/

/-- A granted claim keeps to the limit on running jobs. -/
theorem Granted.runningJobs_le (ht : TablesOk t) (h : Granted t now token request row) :
    runningJobs now (tryClaimStage1Job t now token request).2.stage1 ≤ request.maxRunningJobs := by
  have hothers := h.others
  rw [h.tables]
  show total _ (insert request.threadId row t.stage1) ≤ _
  rw [total_insert_erase _ _ ht.sorted]
  have hlimit : asI64 request.maxRunningJobs ≤ request.maxRunningJobs := by
    unfold asI64
    split_ifs <;> omega
  have hone : (if row.holdsLease now = true then 1 else 0) ≤ 1 := by
    split_ifs <;> omega
  unfold runningJobs at hothers
  omega

/-! ## Tokens -/

/-- The claims that the tables granted along some steps: thread and token, in order. -/
def grants : Tables → List Step → List (Text × Text)
  | _, [] => []
  | t, .claim now token request :: steps =>
    match (tryClaimStage1Job t now token request).1 with
    | .claimed token' =>
      (request.threadId, token') :: grants (t.step (.claim now token request)) steps
    | _ => grants (t.step (.claim now token request)) steps
  | t, .finish now threadId token how :: steps =>
    grants (t.step (.finish now threadId token how)) steps

/-- The tokens that claims bring. -/
def claimTokens (steps : List Step) : List Text :=
  steps.filterMap fun
    | .claim _ token _ => some token
    | .finish _ _ _ _ => none

/-- The token of the latest claim that was granted for a thread. -/
def lastGrant (threadId : Text) (granted : List (Text × Text)) : Option Text :=
  (granted.filter (·.1 = threadId)).getLast?.map (·.2)

/-- A token that can change the row of a thread. -/
def CanChange (t : Tables) (threadId token : Text) : Prop :=
  ∃ now threadId' how, get threadId (t.finish now threadId' token how).stage1 ≠
    get threadId t.stage1

theorem grants_claim_of_same
    (h : ∀ other, (tryClaimStage1Job t now token request).1 ≠ .claimed other) (steps : List Step) :
    grants t (.claim now token request :: steps) = grants (t.step (.claim now token request)) steps := by
  rw [grants]
  split
  next token' htoken => exact absurd htoken (h token')
  next => rfl

theorem grants_claim_of_granted (h : Granted t now token request row) (steps : List Step) :
    grants t (.claim now token request :: steps) =
      (request.threadId, token) :: grants (t.step (.claim now token request)) steps := by
  rw [grants, h.outcome]

/-- Granted tokens are tokens that claims brought. -/
theorem grants_sublist (t : Tables) (steps : List Step) :
    ((grants t steps).map (·.2)).Sublist (claimTokens steps) := by
  induction steps generalizing t with
  | nil => exact List.Sublist.slnil
  | cons s steps ih =>
    cases s with
    | claim now token request =>
      show List.Sublist _ (token :: claimTokens steps)
      obtain ⟨-, hskipped⟩ | ⟨row, hgranted⟩ := claim_cases t now token request
      · rw [grants_claim_of_same hskipped]
        exact (ih _).cons token
      · rw [grants_claim_of_granted hgranted, map_cons]
        exact (ih _).cons_cons token
    | finish now threadId token how => exact ih _

theorem lastGrant_concat (threadId threadId' token : Text) (granted : List (Text × Text)) :
    lastGrant threadId (granted ++ [(threadId', token)]) =
      if threadId = threadId' then some token else lastGrant threadId granted := by
  unfold lastGrant
  rw [filter_append]
  by_cases h : threadId = threadId'
  · simp [h]
  · rw [if_neg h, filter_cons_of_neg (by simpa using Ne.symm h), filter_nil, append_nil]

/-- The token in a row is that of the latest grant. -/
def OwnersOk (t : Tables) (granted : List (Text × Text)) : Prop :=
  ∀ threadId row, get threadId t.stage1 = some row →
    row.ownershipToken = lastGrant threadId granted

theorem Finished.ownershipToken_eq (h : Finished row row') :
    row'.ownershipToken = row.ownershipToken := by
  cases h with
  | succeed => rfl
  | fail => rfl

/-- **The owner of a row** is the latest grant, after any steps. -/
theorem OwnersOk.foldl {granted : List (Text × Text)} (h : OwnersOk t granted) (steps : List Step) :
    OwnersOk (steps.foldl step t) (granted ++ grants t steps) := by
  induction steps generalizing t granted with
  | nil => exact (append_nil granted).symm ▸ h
  | cons s steps ih =>
    cases s with
    | claim now token request =>
      obtain ⟨hsame, hskipped⟩ | ⟨row, hgranted⟩ := claim_cases t now token request
      · rw [grants_claim_of_same hskipped, foldl_cons]
        have hstep : t.step (.claim now token request) = t := hsame
        rw [hstep]
        exact ih h
      · rw [grants_claim_of_granted hgranted, append_cons]
        refine ih fun threadId row' hget => ?_
        have hstep : (t.step (.claim now token request)).stage1 =
            insert request.threadId row t.stage1 := congrArg stage1 hgranted.tables
        rw [hstep, get_insert] at hget
        rw [lastGrant_concat]
        split_ifs at hget ⊢ with hthread
        · obtain rfl := some.inj hget
          exact hgranted.owner
        · exact h _ _ hget
    | finish now threadId token how =>
      refine ih fun threadId' row'' hget => ?_
      replace hget : get threadId' (t.finish now threadId token how).stage1 = some row'' :=
        hget
      obtain hsame | ⟨row, row', howned, hfinished, hstage1⟩ := finish_cases t now threadId token how
      · rw [hsame] at hget
        exact h _ _ hget
      · rw [hstage1, get_insert] at hget
        split_ifs at hget with hthread
        · obtain rfl := some.inj hget
          rw [hfinished.ownershipToken_eq, hthread]
          exact h _ _ (ownedJob_eq_some howned).1
        · exact h _ _ hget

theorem ownersOk_run (steps : List Step) : OwnersOk (run steps) (grants {} steps) :=
  OwnersOk.foldl (show OwnersOk {} [] from fun _ _ h => nomatch h) steps

/-- Only the token in the row changes it. -/
theorem CanChange.owner (h : CanChange t threadId token) :
    (get threadId t.stage1).bind JobRow.ownershipToken = some token := by
  obtain ⟨now, threadId', how, hne⟩ := h
  obtain hsame | ⟨row, row', howned, -, hstage1⟩ := finish_cases t now threadId' token how
  · rw [hsame] at hne
    exact absurd rfl hne
  · rw [hstage1] at hne
    by_cases hthread : threadId = threadId'
    · subst hthread
      obtain ⟨hget, -, htoken⟩ := ownedJob_eq_some howned
      rw [hget]
      exact htoken
    · rw [get_insert_of_ne hthread] at hne
      exact absurd rfl hne

/-- With fresh tokens, a grant that another one followed is not the latest. -/
theorem lastGrant_ne {before after : List (Text × Text)} {old new : Text}
    (hfresh : ((before ++ (threadId, old) :: after).map (·.2)).Nodup)
    (hnew : (threadId, new) ∈ after) :
    lastGrant threadId (before ++ (threadId, old) :: after) ≠ some old := by
  intro hlast
  obtain ⟨pair, hpair, htoken⟩ := map_eq_some_iff.1 hlast
  rw [filter_append, filter_cons_of_pos (by simp)] at hpair
  have hne : after.filter (·.1 = threadId) ≠ [] :=
    ne_nil_of_mem (mem_filter.2 ⟨hnew, by simp⟩)
  rw [getLast?_append_cons, getLast?_cons_of_ne_nil hne] at hpair
  have hafter : old ∈ after.map (·.2) := by
    rw [← htoken]
    exact mem_map_of_mem (mem_filter.1 (mem_of_getLast? hpair)).1
  rw [map_append, map_cons] at hfresh
  exact (nodup_cons.1 (nodup_append.1 hfresh).2.1).1 hafter

/-! ## Every run -/

/-- **Stage-1 memory jobs**, after any transactions of any workers whose claims bring fresh tokens.
A granted claim leaves at most its limit of unexpired leases and is for a source beyond the last
success of the thread.  One token at most can change the row of a thread, and the token of a grant
that another one followed changes nothing.  No last success watermark decreases and no count of
retries is negative.  The times of the transactions are arbitrary. -/
theorem stage1_jobs_safe (steps : List Step) (hfresh : (claimTokens steps).Nodup) :
    (∀ now token request token', (tryClaimStage1Job (run steps) now token request).1 = .claimed token' →
      runningJobs now (tryClaimStage1Job (run steps) now token request).2.stage1 ≤
          request.maxRunningJobs ∧
        lastSuccess (run steps) request.threadId < request.sourceUpdatedAt) ∧
    (∀ threadId token token', CanChange (run steps) threadId token →
      CanChange (run steps) threadId token' → token = token') ∧
    (∀ before after threadId old new,
      grants {} steps = before ++ (threadId, old) :: after → (threadId, new) ∈ after →
      ∀ now how, (run steps).finish now threadId old how = run steps) ∧
    (∀ more threadId, lastSuccess (run steps) threadId ≤ lastSuccess (run (steps ++ more)) threadId) ∧
    ∀ threadId row, SortedMap.get threadId (run steps).stage1 = some row → 0 ≤ row.retryRemaining := by
  have hok := tablesOk_run steps
  refine ⟨?_, ?_, ?_, ?_, ?_⟩
  · intro now token request token' hclaimed
    obtain ⟨-, hskipped⟩ | ⟨row, hgranted⟩ := claim_cases (run steps) now token request
    · exact absurd hclaimed (hskipped token')
    · exact ⟨hgranted.runningJobs_le hok, hgranted.lastSuccess_lt⟩
  · intro threadId token token' h h'
    exact Option.some.inj (h.owner.symm.trans h'.owner)
  · intro before after threadId old new hgrants hnew now how
    obtain hsame | ⟨row, row', howned, -, -⟩ := finish_cases (run steps) now threadId old how
    · exact hsame
    · obtain ⟨hget, -, htoken⟩ := ownedJob_eq_some howned
      have hlast := ownersOk_run steps threadId row hget
      rw [htoken, hgrants] at hlast
      have htokens := (grants_sublist {} steps).nodup hfresh
      rw [hgrants] at htokens
      exact absurd hlast.symm (lastGrant_ne htokens hnew)
  · intro more threadId
    unfold run
    rw [foldl_append]
    exact lastSuccess_foldl hok more threadId
  · intro threadId row hget
    exact (hok.rows _ _ hget).retries_nonneg

/-- A second worker takes the job of a thread over when the lease of the first has expired. -/
def takeover : List Step := [
  .claim 100 ['a'] ⟨['t'], ['v'], 90, 5, 1⟩,
  .claim 105 ['b'] ⟨['t'], ['w'], 90, 5, 1⟩]

theorem takeover_safe :
    (claimTokens takeover).Nodup ∧ grants {} takeover = [(['t'], ['a']), (['t'], ['b'])] ∧
      ∀ now how, (run takeover).finish now ['t'] ['a'] how = run takeover :=
  ⟨by decide, by decide,
    (stage1_jobs_safe takeover (by decide)).2.2.1 [] [(['t'], ['b'])] ['t'] ['a'] ['b']
      (by decide) (by decide)⟩

end MemoryJobs
