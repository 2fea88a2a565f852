/-
# Thread goals

The goal store of the state database (`goals.rs`).  A thread has at most one
goal: an objective with a status, an optional token budget and what was used of
it.  Each function is one SQL statement, so it is modelled as one step on the
table, with the time and the new goal id passed in.

Every statement decides about the status on its own.  The invariant is
`Sound` of one row: the budget of an active goal is not used up, and the
tokens used are those accepted since the goal was created (`accepted`).
-/
import BetterCodex.RustStr

namespace ThreadGoals

open RustStr

inductive ThreadGoalStatus where
  | active
  | paused
  | blocked
  | usageLimited
  | budgetLimited
  | complete
  deriving DecidableEq, Repr

/-- `ThreadGoal`, without the thread it belongs to. -/
structure ThreadGoal where
  goalId : Text
  objective : Text
  status : ThreadGoalStatus
  tokenBudget : Option ℤ
  tokensUsed : ℤ
  timeUsedSeconds : ℤ
  createdAtMs : ℤ
  updatedAtMs : ℤ
  deriving DecidableEq, Repr

structure GoalUpdate where
  objective : Option Text
  status : Option ThreadGoalStatus
  tokenBudget : Option (Option ℤ)
  expectedGoalId : Option Text

inductive GoalAccountingMode where
  | activeStatusOnly
  | activeOnly
  | activeOrComplete
  | activeOrStopped
  deriving DecidableEq, Repr

inductive GoalAccountingOutcome where
  | unchanged (goal : Option ThreadGoal)
  | updated (goal : ThreadGoal)

/-- The budget is set and `tokensUsed` has reached it. -/
def reached (tokenBudget : Option ℤ) (tokensUsed : ℤ) : Bool := tokenBudget.any (· ≤ tokensUsed)

def statusAfterBudgetLimit (status : ThreadGoalStatus) (tokensUsed : ℤ) (tokenBudget : Option ℤ) :
    ThreadGoalStatus :=
  if status = .active ∧ reached tokenBudget tokensUsed then .budgetLimited else status

/-- The row that `replace_thread_goal` and `insert_thread_goal` write. -/
def newGoal (goalId objective : Text) (status : ThreadGoalStatus) (tokenBudget : Option ℤ)
    (nowMs : ℤ) : ThreadGoal :=
  ⟨goalId, objective, statusAfterBudgetLimit status 0 tokenBudget, tokenBudget, 0, 0, nowMs, nowMs⟩

/-- The `CASE` of an update that sets the status, with the budget that is valid after it. -/
def updatedStatus (goal : ThreadGoal) (status : ThreadGoalStatus) (tokenBudget : Option ℤ) :
    ThreadGoalStatus :=
  if goal.status = .budgetLimited ∧ (status = .paused ∨ status = .blocked) then goal.status
  else if status = .active ∧ reached tokenBudget goal.tokensUsed then .budgetLimited
  else status

/-- The row that `update_thread_goal` writes. -/
def updatedGoal (goal : ThreadGoal) (update : GoalUpdate) (nowMs : ℤ) : ThreadGoal :=
  match update.status, update.tokenBudget with
  | some status, some tokenBudget =>
    { goal with
      objective := update.objective.getD goal.objective
      status := updatedStatus goal status tokenBudget
      tokenBudget := tokenBudget
      updatedAtMs := nowMs }
  | some status, none =>
    { goal with
      objective := update.objective.getD goal.objective
      status := updatedStatus goal status goal.tokenBudget
      updatedAtMs := nowMs }
  | none, some tokenBudget =>
    { goal with
      objective := update.objective.getD goal.objective
      tokenBudget := tokenBudget
      status := if goal.status = .active ∧ reached tokenBudget goal.tokensUsed then .budgetLimited
        else goal.status
      updatedAtMs := nowMs }
  | none, none =>
    match update.objective with
    | some objective => { goal with objective := objective, updatedAtMs := nowMs }
    -- nothing to set: the row is only read
    | none => goal

/-- `active_or_stopped_status_filter`. -/
def activeOrStopped (status : ThreadGoalStatus) : Bool := status ≠ .complete

/-- `status_filter`: the rows that usage is accounted to. -/
def statusFilter : GoalAccountingMode → ThreadGoalStatus → Bool
  | .activeStatusOnly, status => status = .active
  | .activeOnly, status => status = .active ∨ status = .budgetLimited
  | .activeOrComplete, status => status = .active ∨ status = .budgetLimited ∨ status = .complete
  | .activeOrStopped, status => activeOrStopped status

/-- `budget_limit_status_filter`: the rows that a used-up budget stops. -/
def budgetLimitStatusFilter : GoalAccountingMode → ThreadGoalStatus → Bool
  | .activeOrStopped, status => activeOrStopped status
  | _, status => status = .active

/-- The row that `account_thread_goal_usage` writes. -/
def accountedGoal (goal : ThreadGoal) (timeDelta tokenDelta : ℤ) (mode : GoalAccountingMode)
    (nowMs : ℤ) : ThreadGoal :=
  { goal with
    timeUsedSeconds := goal.timeUsedSeconds + timeDelta
    tokensUsed := goal.tokensUsed + tokenDelta
    status := if budgetLimitStatusFilter mode goal.status
        ∧ reached goal.tokenBudget (goal.tokensUsed + tokenDelta) then .budgetLimited
      else goal.status
    updatedAtMs := nowMs }

section
variable {ThreadId : Type} [DecidableEq ThreadId]

/-- The table `thread_goals`; `thread_id` is its key. -/
abbrev Store (ThreadId : Type) := ThreadId → Option ThreadGoal

variable (store : Store ThreadId) (thread : ThreadId)

/-- `UPDATE … WHERE thread_id = ? AND …`: the row after it, if one was affected. -/
def Store.updateRow (affects : ThreadGoal → Bool)
    (set : ThreadGoal → ThreadGoal) : Option ThreadGoal × Store ThreadId :=
  match store thread with
  | some goal =>
    if affects goal then (some (set goal), Function.update store thread (some (set goal)))
    else (none, store)
  | none => (none, store)

/-- `(? IS NULL OR goal_id = ?)`. -/
def expects (expectedGoalId : Option Text) (goal : ThreadGoal) : Bool :=
  expectedGoalId.all (· = goal.goalId)

def Store.replaceThreadGoal (goal : ThreadGoal) : ThreadGoal × Store ThreadId :=
  (goal, Function.update store thread (some goal))

/-- `insert_thread_goal`: only a goal that is complete is replaced. -/
def Store.insertThreadGoal (goal : ThreadGoal) :
    Option ThreadGoal × Store ThreadId :=
  if (store thread).all (·.status = .complete) then
    (some goal, Function.update store thread (some goal))
  else (none, store)

def Store.updateThreadGoal (update : GoalUpdate) (nowMs : ℤ) : Option ThreadGoal × Store ThreadId :=
  store.updateRow thread (expects update.expectedGoalId) (updatedGoal · update nowMs)

def Store.updateActiveThreadGoalStatus
    (status : ThreadGoalStatus) (nowMs : ℤ) : Option ThreadGoal × Store ThreadId :=
  store.updateRow thread
    (fun goal => goal.status = .active ∨ status = .usageLimited ∧ goal.status = .budgetLimited)
    ({ · with status := status, updatedAtMs := nowMs })

def Store.pauseActiveThreadGoal (nowMs : ℤ) :
    Option ThreadGoal × Store ThreadId :=
  store.updateActiveThreadGoalStatus thread .paused nowMs

def Store.usageLimitActiveThreadGoal (nowMs : ℤ) :
    Option ThreadGoal × Store ThreadId :=
  store.updateActiveThreadGoalStatus thread .usageLimited nowMs

def Store.deleteThreadGoal : Option ThreadGoal × Store ThreadId :=
  (store thread, Function.update store thread none)

def Store.accountThreadGoalUsage
    (timeDeltaSeconds tokenDelta : ℤ) (mode : GoalAccountingMode) (expectedGoalId : Option Text)
    (nowMs : ℤ) : GoalAccountingOutcome × Store ThreadId :=
  let timeDelta := max timeDeltaSeconds 0
  let tokenDelta := max tokenDelta 0
  if timeDelta = 0 ∧ tokenDelta = 0 then (.unchanged (store thread), store)
  else
    match store.updateRow thread
        (fun goal => statusFilter mode goal.status && expects expectedGoalId goal)
        (accountedGoal · timeDelta tokenDelta mode nowMs) with
    | (some goal, store) => (.updated goal, store)
    | (none, store) => (.unchanged (store thread), store)

/-! ## Steps -/

/-- One statement on the goal of a thread. -/
inductive Op where
  | replace (goalId objective : Text) (status : ThreadGoalStatus) (tokenBudget : Option ℤ)
  | insert (goalId objective : Text) (status : ThreadGoalStatus) (tokenBudget : Option ℤ)
  | update (update : GoalUpdate)
  | pause
  | usageLimit
  | delete
  | account (timeDeltaSeconds tokenDelta : ℤ) (mode : GoalAccountingMode)
      (expectedGoalId : Option Text)

/-- A statement on a thread, at a time. -/
structure Call (ThreadId : Type) where
  thread : ThreadId
  nowMs : ℤ
  op : Op

/-- The table after a call. -/
def Store.step (call : Call ThreadId) : Store ThreadId :=
  match call.op with
  | .replace goalId objective status tokenBudget =>
    (store.replaceThreadGoal call.thread
      (newGoal goalId objective status tokenBudget call.nowMs)).2
  | .insert goalId objective status tokenBudget =>
    (store.insertThreadGoal call.thread
      (newGoal goalId objective status tokenBudget call.nowMs)).2
  | .update update => (store.updateThreadGoal call.thread update call.nowMs).2
  | .pause => (store.pauseActiveThreadGoal call.thread call.nowMs).2
  | .usageLimit => (store.usageLimitActiveThreadGoal call.thread call.nowMs).2
  | .delete => (store.deleteThreadGoal call.thread).2
  | .account timeDelta tokenDelta mode expectedGoalId =>
    (store.accountThreadGoalUsage call.thread timeDelta tokenDelta mode expectedGoalId
      call.nowMs).2

/-- What a call did that later sums count: it created a goal, or it accepted usage. -/
inductive Event (ThreadId : Type) where
  | created (thread : ThreadId) (goalId : Text)
  | accepted (thread : ThreadId) (goalId : Text) (tokenDelta : ℤ)

/-- The event of a call, read off what the call returns. -/
def Store.event (call : Call ThreadId) : Option (Event ThreadId) :=
  match call.op with
  | .replace goalId objective status tokenBudget =>
    some (.created call.thread (store.replaceThreadGoal call.thread
      (newGoal goalId objective status tokenBudget call.nowMs)).1.goalId)
  | .insert goalId objective status tokenBudget =>
    (store.insertThreadGoal call.thread
      (newGoal goalId objective status tokenBudget call.nowMs)).1.map
        (.created call.thread ·.goalId)
  | .account timeDelta tokenDelta mode expectedGoalId =>
    match (store.accountThreadGoalUsage call.thread timeDelta tokenDelta mode expectedGoalId
      call.nowMs).1 with
    | .updated goal => some (.accepted call.thread goal.goalId (max tokenDelta 0))
    | .unchanged _ => none
  | _ => none

/-- The deltas accepted for a goal id of a thread since it was created; latest event first. -/
def accepted (thread : ThreadId) (goalId : Text) : List (Event ThreadId) → ℤ
  | [] => 0
  | .created t g :: log => if t = thread ∧ g = goalId then 0 else accepted thread goalId log
  | .accepted t g delta :: log =>
    (if t = thread ∧ g = goalId then delta else 0) + accepted thread goalId log

/-- The calls, one after the other, with the events so far. -/
def run (calls : List (Call ThreadId)) : Store ThreadId × List (Event ThreadId) :=
  calls.foldl (fun s call => (s.1.step call, (s.1.event call).toList ++ s.2)) (fun _ => none, [])

/-! ## One row -/

/-- What holds of a stored goal, given the tokens accepted for it. -/
structure Sound (goal : ThreadGoal) (tokens : ℤ) : Prop where
  limited : ¬ (goal.status = .active ∧ reached goal.tokenBudget goal.tokensUsed = true)
  used : goal.tokensUsed = tokens

theorem sound_newGoal (goalId objective : Text) (status : ThreadGoalStatus)
    (tokenBudget : Option ℤ) (nowMs : ℤ) :
    Sound (newGoal goalId objective status tokenBudget nowMs) 0 := by
  refine ⟨?_, rfl⟩
  unfold newGoal statusAfterBudgetLimit
  split_ifs with h
  · simp
  · exact h

/-- An update leaves a sound row. -/
theorem sound_updatedGoal {goal : ThreadGoal} {tokens : ℤ} (h : Sound goal tokens)
    (update : GoalUpdate) (nowMs : ℤ) : Sound (updatedGoal goal update nowMs) tokens := by
  have hstatus : ∀ status tokenBudget, ¬ (updatedStatus goal status tokenBudget = .active
      ∧ reached tokenBudget goal.tokensUsed = true) := by
    intro status tokenBudget
    unfold updatedStatus
    split_ifs with hkept hlimit
    · simp [hkept.1]
    · simp
    · exact hlimit
  obtain ⟨hlimited, hused⟩ := h
  unfold updatedGoal
  split
  · exact ⟨hstatus _ _, hused⟩
  · exact ⟨hstatus _ _, hused⟩
  · refine ⟨?_, hused⟩
    split_ifs with hlimit
    · simp
    · exact hlimit
  · split
    · exact ⟨hlimited, hused⟩
    · exact ⟨hlimited, hused⟩

/-- Accounting adds its tokens to the sum the goal has used. -/
theorem sound_accountedGoal {goal : ThreadGoal} {tokens : ℤ} (h : Sound goal tokens)
    (timeDelta tokenDelta : ℤ) (mode : GoalAccountingMode) (nowMs : ℤ) :
    Sound (accountedGoal goal timeDelta tokenDelta mode nowMs) (tokenDelta + tokens) := by
  refine ⟨?_, ?_⟩
  · unfold accountedGoal
    split_ifs with hlimit
    · simp
    · -- every mode stops an active goal whose budget is used up
      rintro ⟨hactive, hreached⟩
      refine hlimit ⟨?_, hreached⟩
      rw [hactive]
      cases mode <;> rfl
  · show goal.tokensUsed + tokenDelta = _
    rw [h.used, add_comm]

/-! ## Steps keep the rows sound -/

/-- What holds of the table, given the events so far. -/
def Inv (log : List (Event ThreadId)) : Prop :=
  ∀ thread goal, store thread = some goal → Sound goal (accepted thread goal.goalId log)

variable {store : Store ThreadId} {log : List (Event ThreadId)}

/-- A statement that writes one row. -/
theorem Inv.write (h : Inv store log) {thread : ThreadId} {row : Option ThreadGoal}
    (event : Option (Event ThreadId)) (hevent : ∀ t ≠ thread, ∀ goalId,
      accepted t goalId (event.toList ++ log) = accepted t goalId log)
    (hrow : ∀ goal, row = some goal →
      Sound goal (accepted thread goal.goalId (event.toList ++ log))) :
    Inv (Function.update store thread row) (event.toList ++ log) := by
  intro t goal hgoal
  by_cases ht : t = thread
  · subst ht
    rw [Function.update_self] at hgoal
    exact hrow goal hgoal
  · rw [Function.update_of_ne ht] at hgoal
    rw [hevent t ht]
    exact h t goal hgoal

theorem Inv.create (h : Inv store log) (thread : ThreadId) {goal : ThreadGoal}
    (hgoal : Sound goal 0) :
    Inv (Function.update store thread (some goal))
      ((some (Event.created thread goal.goalId)).toList ++ log) := by
  refine h.write (some _) (fun t ht goalId => ?_) ?_
  · simp [accepted, Ne.symm ht]
  · rintro _ ⟨⟩
    simpa [accepted] using hgoal

/-- A statement that changes one row in place. -/
theorem Inv.updateRow (h : Inv store log) (thread : ThreadId) (affects : ThreadGoal → Bool)
    {set : ThreadGoal → ThreadGoal} (hid : ∀ goal, (set goal).goalId = goal.goalId)
    (hset : ∀ goal tokens, affects goal = true → Sound goal tokens → Sound (set goal) tokens) :
    Inv (store.updateRow thread affects set).2 log := by
  unfold Store.updateRow
  cases hgoal : store thread with
  | none => exact h
  | some goal =>
    dsimp only
    split_ifs with haffects
    · refine h.write none (fun _ _ _ => rfl) ?_
      rintro _ ⟨⟩
      rw [hid]
      exact hset goal _ haffects (h thread goal hgoal)
    · exact h

theorem goalId_updatedGoal (goal : ThreadGoal) (update : GoalUpdate) (nowMs : ℤ) :
    (updatedGoal goal update nowMs).goalId = goal.goalId := by
  unfold updatedGoal
  split
  · rfl
  · rfl
  · rfl
  · split <;> rfl

/-- **One call** keeps the rows sound. -/
theorem Inv.step (h : Inv store log) (call : Call ThreadId) :
    Inv (store.step call) ((store.event call).toList ++ log) := by
  obtain ⟨thread, nowMs, op⟩ := call
  -- pausing and limiting end in a status that is not active
  have hstop : ∀ status : ThreadGoalStatus, status ≠ .active →
      Inv (store.updateActiveThreadGoalStatus thread status nowMs).2 log := by
    intro status hstatus
    refine h.updateRow thread _ (fun _ => rfl) ?_
    rintro goal tokens - ⟨-, hused⟩
    exact ⟨fun hactive => hstatus hactive.1, hused⟩
  cases op with
  | replace goalId objective status tokenBudget =>
    exact h.create thread (sound_newGoal goalId objective status tokenBudget nowMs)
  | insert goalId objective status tokenBudget =>
    simp only [Store.step, Store.event, Store.insertThreadGoal]
    split_ifs
    · exact h.create thread (sound_newGoal goalId objective status tokenBudget nowMs)
    · exact h
  | update update =>
    exact h.updateRow thread _ (goalId_updatedGoal · update nowMs)
      fun goal tokens _ hgoal => sound_updatedGoal hgoal update nowMs
  | pause => exact hstop .paused (by simp)
  | usageLimit => exact hstop .usageLimited (by simp)
  | delete => exact h.write none (fun _ _ _ => rfl) (by simp)
  | account timeDelta tokenDelta mode expectedGoalId =>
    simp only [Store.step, Store.event, Store.accountThreadGoalUsage, Store.updateRow]
    split_ifs with hzero
    · exact h
    · cases hgoal : store thread with
      | none => exact h
      | some goal =>
        dsimp only
        split_ifs with haffects
        · refine h.write (some _) (fun t ht goalId => ?_) ?_
          · simp [accepted, Ne.symm ht]
          · rintro _ ⟨⟩
            have hsound := sound_accountedGoal (h thread goal hgoal) (max timeDelta 0)
              (max tokenDelta 0) mode nowMs
            simpa [accepted, accountedGoal] using hsound
        · exact h

theorem updateRow_of_not_affects {thread : ThreadId} {goal : ThreadGoal}
    (hgoal : store thread = some goal) {affects : ThreadGoal → Bool} (h : affects goal = false)
    (set : ThreadGoal → ThreadGoal) : store.updateRow thread affects set = (none, store) := by
  simp [Store.updateRow, hgoal, h]

/-- **Goals.**  After any calls from the empty table, no stored goal is active with a budget
that its used tokens have reached, and its used tokens are those accepted for it since it was
created.  An update or an accounting call that expects another goal id changes nothing. -/
theorem run_goals (calls : List (Call ThreadId)) :
    (∀ thread goal, (run calls).1 thread = some goal →
        ¬ (goal.status = .active ∧ reached goal.tokenBudget goal.tokensUsed)
          ∧ goal.tokensUsed = accepted thread goal.goalId (run calls).2)
      ∧ ∀ (store : Store ThreadId) thread goal expectedGoalId, store thread = some goal →
        expectedGoalId ≠ goal.goalId →
          (∀ update nowMs, update.expectedGoalId = some expectedGoalId →
            (store.updateThreadGoal thread update nowMs).2 = store)
          ∧ ∀ timeDelta tokenDelta mode nowMs,
            (store.accountThreadGoalUsage thread timeDelta tokenDelta mode (some expectedGoalId)
              nowMs).2 = store := by
  constructor
  · have hinv : Inv (run calls).1 (run calls).2 := by
      unfold run
      induction calls using List.reverseRecOn with
      | nil => rintro _ _ ⟨⟩
      | append_singleton calls call ih =>
        rw [List.foldl_concat]
        exact ih.step call
    intro thread goal hgoal
    obtain ⟨hlimited, hused⟩ := hinv thread goal hgoal
    exact ⟨hlimited, hused⟩
  · intro store thread goal expectedGoalId hgoal hne
    have hother : expects (some expectedGoalId) goal = false := by simp [expects, hne]
    constructor
    · intro update nowMs hexpected
      unfold Store.updateThreadGoal
      rw [updateRow_of_not_affects hgoal (by rw [hexpected, hother])]
    · intro timeDelta tokenDelta mode nowMs
      unfold Store.accountThreadGoalUsage
      dsimp only
      rw [updateRow_of_not_affects hgoal (by rw [hother, Bool.and_false])]
      split_ifs <;> rfl

end

end ThreadGoals
