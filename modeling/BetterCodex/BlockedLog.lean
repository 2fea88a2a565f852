/-
# The log of blocked requests under concurrent calls

The proxy state lives behind one lock.  A call is a sequence of lock sections, and
between two sections of one call the sections of others may run.  Here a call in
progress is a `Thread`, one section is a `Thread.move`, and `step` lets any thread
move next.  Beside the state the system keeps what the log is judged by: the
requests recorded so far, those handed out by `drain_blocked`, those pushed out of
the ring buffer, and the number of `record_blocked` calls that returned.
-/
import BetterCodex.DomainUpdate
import BetterCodex.Runs

namespace NetworkProxy

open RustStr Runs List Option

/-! ## Lock sections -/

def maxBlockedEvents : ℕ := 200

/-- `u64::MAX`. -/
def u64Max : ℕ := 2 ^ 64 - 1

section
variable {Rest Hooks Mitm : Type}

/-- The write section of `record_blocked`: the state after it and the requests that
it pops from the front. -/
def pushBlocked (state : ConfigState Rest Hooks Mitm) (entry : BlockedRequest) :
    ConfigState Rest Hooks Mitm × List BlockedRequest :=
  let blocked := state.blocked ++ [entry]
  let excess := blocked.length - maxBlockedEvents
  ({ state with
      blocked := blocked.drop excess
      blockedTotal := min (state.blockedTotal + 1) u64Max },
    blocked.take excess)

/-- The install of `reload_if_needed` and of `replace_config_state`. -/
def installKeepingLog (guard new : ConfigState Rest Hooks Mitm) : ConfigState Rest Hooks Mitm :=
  { new with
    blocked := guard.blocked
    blockedTotal := guard.blockedTotal }

/-- The install of `force_reload`: the counter is that of the new state. -/
def installForced (guard new : ConfigState Rest Hooks Mitm) : ConfigState Rest Hooks Mitm :=
  { new with blocked := guard.blocked }

/-- The calls. -/
inductive Call (Rest Hooks Mitm : Type) where
  | recordBlocked (executionId : Option Text) (entry : BlockedRequest)
  | drainBlocked
  | updateDomainList (target : DomainListKind) (host : Text)
  | replaceConfigState (new : ConfigState Rest Hooks Mitm)
  | forceReload

/-- A call in progress, by what it does next. -/
inductive Thread (Rest Hooks Mitm : Type) where
  /-- Asks the reloader, and installs what it answers. -/
  | reloading (call : Call Rest Hooks Mitm)
  /-- Takes the lock for the call's own section. -/
  | locking (call : Call Rest Hooks Mitm)
  /-- `update_domain_list` before its write section. -/
  | installing (target : DomainListKind) (host : Text)
      (snapshot new : ConfigState Rest Hooks Mitm)
  /-- `force_reload` before its write section. -/
  | forcing (new : ConfigState Rest Hooks Mitm)
  /-- `record_blocked` after its write section. -/
  | notifying

/-- The reloader's part in a move. -/
inductive Reply (Rest Hooks Mitm : Type) where
  | notAsked
  | unchanged
  | fresh (new : ConfigState Rest Hooks Mitm)
  | failed

/-- What one move does: the state it leaves, what happened to the log, the number of
recordings that it completes, and how the call goes on. -/
structure Move (Rest Hooks Mitm : Type) where
  state : ConfigState Rest Hooks Mitm
  recorded : List BlockedRequest := []
  drained : List BlockedRequest := []
  evicted : List BlockedRequest := []
  completed : ℕ := 0
  next : Option (Thread Rest Hooks Mitm) := none

/-- The beginning of a call; an update returns at once if the host does not parse. -/
def Call.begin : Call Rest Hooks Mitm → Option (Thread Rest Hooks Mitm)
  | .updateDomainList target host =>
    match Host.parse host with
    | .error _ => none
    | .ok host => some (.reloading (.updateDomainList target host.asStr))
  | call => some (.reloading call)

/-- The reloader has answered: `force_reload` goes on with what `reload_now` loaded,
the other calls begin with `reload_if_needed`. -/
def Call.reloaded (state : ConfigState Rest Hooks Mitm) :
    Call Rest Hooks Mitm → Reply Rest Hooks Mitm → Option (Move Rest Hooks Mitm)
  | _, .notAsked => none
  | _, .failed => some { state }
  | .forceReload, .unchanged => none
  | .forceReload, .fresh new => some { state, next := some (.forcing new) }
  | call, .unchanged => some { state, next := some (.locking call) }
  | call, .fresh new => some { state := installKeepingLog state new, next := some (.locking call) }

variable [DecidableEq Rest] (ext : Externals Rest Hooks Mitm) (policy : LocalBindingPolicy)

/-- The first lock section of a call after `reload_if_needed`. -/
def Call.locked (state : ConfigState Rest Hooks Mitm) :
    Call Rest Hooks Mitm → Option (Move Rest Hooks Mitm)
  | .recordBlocked executionId entry =>
    let entry := { entry with executionId }
    some {
      state := (pushBlocked state entry).1
      recorded := [entry]
      evicted := (pushBlocked state entry).2
      next := some .notifying }
  | .drainBlocked => some { state := { state with blocked := [] }, drained := state.blocked }
  | .updateDomainList target host =>
    match prepareUpdate ext policy target host state with
    | .ok (some new) => some { state, next := some (.installing target host state new) }
    | _ => some { state }
  | .replaceConfigState new => some { state := installKeepingLog state new }
  | .forceReload => none

/-- The next move of a call. -/
def Thread.move (state : ConfigState Rest Hooks Mitm) :
    Thread Rest Hooks Mitm → Reply Rest Hooks Mitm → Option (Move Rest Hooks Mitm)
  | .reloading call, reply => call.reloaded state reply
  | .locking call, .notAsked => call.locked ext policy state
  | .installing target host snapshot new, .notAsked =>
    if unchangedSince snapshot state then some { state := new }
    else some { state, next := some (.reloading (.updateDomainList target host)) }
  | .forcing new, .notAsked => some { state := installForced state new }
  | .notifying, .notAsked => some { state, completed := 1 }
  | _, _ => none

end

/-! ## The system -/

/-- The proxy state, the calls in progress, and what has happened to the log. -/
structure System (Rest Hooks Mitm : Type) where
  state : ConfigState Rest Hooks Mitm
  threads : List (Thread Rest Hooks Mitm)
  recorded : List BlockedRequest
  drained : List BlockedRequest
  evicted : List BlockedRequest
  completed : ℕ

/-- An event: a call is made, or a call in progress makes its next move. -/
inductive Event (Rest Hooks Mitm : Type) where
  | start (call : Call Rest Hooks Mitm)
  | advance (thread : ℕ) (reply : Reply Rest Hooks Mitm)

section
variable {Rest Hooks Mitm : Type}

/-- The system in which no call has been made. -/
def System.fresh (state : ConfigState Rest Hooks Mitm) : System Rest Hooks Mitm where
  state
  threads := []
  recorded := []
  drained := []
  evicted := []
  completed := 0

/-- The system after a move of the thread at this place. -/
def System.after (sys : System Rest Hooks Mitm) (thread : ℕ) (m : Move Rest Hooks Mitm) :
    System Rest Hooks Mitm where
  state := m.state
  threads := sys.threads.eraseIdx thread ++ m.next.toList
  recorded := sys.recorded ++ m.recorded
  drained := sys.drained ++ m.drained
  evicted := sys.evicted ++ m.evicted
  completed := sys.completed + m.completed

variable [DecidableEq Rest] (ext : Externals Rest Hooks Mitm) (policy : LocalBindingPolicy)

/-- One step: any call may be made and any call in progress may move. -/
def step (sys : System Rest Hooks Mitm) : Event Rest Hooks Mitm → Option (System Rest Hooks Mitm)
  | .start call => some { sys with threads := sys.threads ++ call.begin.toList }
  | .advance thread reply => do
    let t ← sys.threads[thread]?
    let m ← t.move ext policy sys.state reply
    return sys.after thread m

end

/-! ## What a move does to the log -/

section
variable {Rest Hooks Mitm : Type}

/-- The call is a `record_blocked` that has only to return. -/
def Thread.isNotifying : Thread Rest Hooks Mitm → Bool
  | .notifying => true
  | _ => false

/-- An update about to install holds a state with the log of its snapshot. -/
def Thread.Carries : Thread Rest Hooks Mitm → Prop
  | .installing _ _ snapshot new =>
    new.blocked = snapshot.blocked ∧ new.blockedTotal = snapshot.blockedTotal
  | _ => True

/-- A snapshot that the call holds is one of this state. -/
def Thread.FreshSnapshot (state : ConfigState Rest Hooks Mitm) : Thread Rest Hooks Mitm → Prop
  | .installing _ _ snapshot _ => snapshot = state
  | _ => True

variable [DecidableEq Rest] {ext : Externals Rest Hooks Mitm} {policy : LocalBindingPolicy}

/-- The moves that keep the log whole: a recording that the counter has room for, an
install whose snapshot has the current count, a forced reload to a state with the
current count. -/
def Thread.Safe (state : ConfigState Rest Hooks Mitm) : Thread Rest Hooks Mitm → Prop
  | .locking (.recordBlocked _ _) => state.blockedTotal < u64Max
  | .installing _ _ snapshot _ =>
    unchangedSince snapshot state = true → snapshot.blockedTotal = state.blockedTotal
  | .forcing new => new.blockedTotal = state.blockedTotal
  | _ => True

/-- The moves that lose nothing and put nothing back: an install finds the buffer of its snapshot. -/
def Thread.KeepsBuffer (state : ConfigState Rest Hooks Mitm) : Thread Rest Hooks Mitm → Prop
  | .installing _ _ snapshot _ =>
    unchangedSince snapshot state = true → snapshot.blocked.Perm state.blocked
  | _ => True

/-- The moves by their effect on the log. -/
inductive Moved (state : ConfigState Rest Hooks Mitm) :
    Thread Rest Hooks Mitm → Move Rest Hooks Mitm → Prop where
  /-- The log stays; the call may go on with a snapshot of the state. -/
  | quiet {t : Thread Rest Hooks Mitm} {new : ConfigState Rest Hooks Mitm}
      {next : Option (Thread Rest Hooks Mitm)}
      (hblocked : new.blocked = state.blocked) (htotal : new.blockedTotal = state.blockedTotal)
      (hcall : t.isNotifying = false) (hsafe : t.Safe state ∧ t.KeepsBuffer state)
      (hnext : ∀ t' ∈ next, t'.isNotifying = false ∧ t'.Carries ∧ t'.FreshSnapshot state) :
      Moved state t { state := new, next }
  | recorded {executionId : Option Text} {entry : BlockedRequest} (pushed : BlockedRequest) :
      Moved state (.locking (.recordBlocked executionId entry))
        { state := (pushBlocked state pushed).1
          recorded := [pushed]
          evicted := (pushBlocked state pushed).2
          next := some .notifying }
  | returned : Moved state .notifying { state, completed := 1 }
  | drained : Moved state (.locking .drainBlocked)
      { state := { state with blocked := [] }, drained := state.blocked }
  | installed {target : DomainListKind} {host : Text} {snapshot new : ConfigState Rest Hooks Mitm}
      (hguard : unchangedSince snapshot state = true) :
      Moved state (.installing target host snapshot new) { state := new }
  | forced {new : ConfigState Rest Hooks Mitm} :
      Moved state (.forcing new) { state := installForced state new }

variable {new : ConfigState Rest Hooks Mitm}

omit [DecidableEq Rest] in
/-- The state that an update prepares has the log of the snapshot. -/
theorem log_of_prepareUpdate {target : DomainListKind} {host : Text}
    {snapshot : ConfigState Rest Hooks Mitm}
    (h : prepareUpdate ext policy target host snapshot = .ok (some new)) :
    new.blocked = snapshot.blocked ∧ new.blockedTotal = snapshot.blockedTotal := by
  rw [prepareUpdate] at h
  split_ifs at h
  · cases h
  obtain ⟨-, -, h⟩ := bind_eq_ok.1 h
  obtain ⟨built, -, h⟩ := bind_eq_ok.1 h
  obtain rfl := some.inj (Except.ok.inj h)
  exact ⟨rfl, rfl⟩

variable {state : ConfigState Rest Hooks Mitm} {t : Thread Rest Hooks Mitm}

theorem Moved.ended (hblocked : new.blocked = state.blocked)
    (htotal : new.blockedTotal = state.blockedTotal) (hcall : t.isNotifying = false)
    (hsafe : t.Safe state ∧ t.KeepsBuffer state) : Moved state t { state := new } :=
  .quiet hblocked htotal hcall hsafe fun t' ht' => absurd ht' (not_mem_none t')

theorem Moved.passed {t' : Thread Rest Hooks Mitm} (hblocked : new.blocked = state.blocked)
    (htotal : new.blockedTotal = state.blockedTotal) (hcall : t.isNotifying = false)
    (hsafe : t.Safe state ∧ t.KeepsBuffer state)
    (hnext : t'.isNotifying = false ∧ t'.Carries ∧ t'.FreshSnapshot state) :
    Moved state t { state := new, next := some t' } := by
  refine .quiet hblocked htotal hcall hsafe fun t'' ht'' => ?_
  obtain rfl := some.inj ht''
  exact hnext

variable {call : Call Rest Hooks Mitm} {m : Move Rest Hooks Mitm}

/-- So is the section that follows a reload. -/
theorem moved_of_reloaded {reply : Reply Rest Hooks Mitm} (h : call.reloaded state reply = some m) :
    Moved state (.reloading call) m := by
  cases reply with
  | notAsked => cases call <;> cases h
  | failed =>
    have : m = { state } := by cases call <;> exact (some.inj h).symm
    subst this
    exact .ended rfl rfl rfl ⟨trivial, trivial⟩
  | unchanged =>
    cases call <;> cases h <;> exact .passed rfl rfl rfl ⟨trivial, trivial⟩ ⟨rfl, trivial, trivial⟩
  | fresh new =>
    cases call <;> cases h <;> exact .passed rfl rfl rfl ⟨trivial, trivial⟩ ⟨rfl, trivial, trivial⟩

/-- The lock section that a call starts with is one of the moves. -/
theorem moved_of_locked (h : call.locked ext policy state = some m) :
    Moved state (.locking call) m := by
  cases call with
  | recordBlocked executionId entry =>
    obtain rfl := some.inj h
    exact .recorded _
  | drainBlocked =>
    obtain rfl := some.inj h
    exact .drained
  | updateDomainList target host =>
    rw [Call.locked] at h
    split at h
    · rename_i hprepare
      obtain rfl := some.inj h
      exact .passed rfl rfl rfl ⟨trivial, trivial⟩ ⟨rfl, log_of_prepareUpdate hprepare, rfl⟩
    · obtain rfl := some.inj h
      exact .ended rfl rfl rfl ⟨trivial, trivial⟩
  | replaceConfigState new =>
    obtain rfl := some.inj h
    exact .ended rfl rfl rfl ⟨trivial, trivial⟩
  | forceReload => cases h

/-- Every move is one of these. -/
theorem moved_of_move {reply : Reply Rest Hooks Mitm} (h : t.move ext policy state reply = some m) :
    Moved state t m := by
  cases t with
  | reloading call => exact moved_of_reloaded h
  | locking call =>
    cases reply with
    | notAsked => exact moved_of_locked h
    | _ => cases h
  | installing target host snapshot new =>
    cases reply with
    | notAsked =>
      rw [Thread.move] at h
      split_ifs at h with hguard
      · obtain rfl := some.inj h
        exact .installed hguard
      · obtain rfl := some.inj h
        exact .passed rfl rfl rfl ⟨fun h => absurd h hguard, fun h => absurd h hguard⟩
          ⟨rfl, trivial, trivial⟩
    | _ => cases h
  | forcing new =>
    cases reply with
    | notAsked =>
      obtain rfl := some.inj h
      exact .forced
    | _ => cases h
  | notifying =>
    cases reply with
    | notAsked =>
      obtain rfl := some.inj h
      exact .returned
    | _ => cases h

variable {sys sys' : System Rest Hooks Mitm} {e : Event Rest Hooks Mitm}

/-- A step makes a call or is the move of a call in progress. -/
theorem step_cases (h : step ext policy sys e = some sys') :
    (∃ call, e = .start call ∧
      sys' = { sys with threads := sys.threads ++ (Call.begin call).toList }) ∨
    ∃ i reply t m, e = .advance i reply ∧ sys.threads[i]? = some t ∧ Moved sys.state t m ∧
      sys' = sys.after i m := by
  cases e with
  | start call => exact .inl ⟨call, rfl, (some.inj h).symm⟩
  | advance i reply =>
    obtain ⟨t, ht, h⟩ := bind_eq_some_iff.1 h
    obtain ⟨m, hm, h⟩ := bind_eq_some_iff.1 h
    exact .inr ⟨i, reply, t, m, rfl, ht, moved_of_move hm, (some.inj h).symm⟩

omit [DecidableEq Rest] in
theorem reloading_of_begin (h : t ∈ call.begin) : ∃ call', t = .reloading call' := by
  cases call with
  | updateDomainList target host =>
    rw [Call.begin] at h
    split at h
    · cases h
    · exact ⟨_, (some.inj h).symm⟩
  | _ => exact ⟨_, (some.inj h).symm⟩

variable {i : ℕ}

omit [DecidableEq Rest] in
theorem mem_threads_after (h : t ∈ (sys.after i m).threads) : t ∈ sys.threads ∨ t ∈ m.next := by
  rcases mem_append.1 h with h | h
  · exact .inl (mem_of_mem_eraseIdx h)
  · exact .inr (mem_toList.1 h)

omit [DecidableEq Rest] in
/-- The moving thread leaves the pool and its continuation enters it. -/
theorem countP_threads_after (ht : sys.threads[i]? = some t) (p : Thread Rest Hooks Mitm → Bool) :
    (sys.after i m).threads.countP p + [t].countP p =
      sys.threads.countP p + m.next.toList.countP p := by
  obtain ⟨hi, rfl⟩ := List.getElem?_eq_some_iff.1 ht
  have hperm := (getElem_cons_eraseIdx_perm hi).countP_eq p
  rw [← singleton_append, countP_append] at hperm
  rw [System.after, countP_append]
  omega

/-- A move that records goes on to notify, and a call that notifies then returns. -/
theorem Moved.calls (h : Moved state t m) :
    m.recorded.length + [t].countP Thread.isNotifying =
      m.completed + m.next.toList.countP Thread.isNotifying := by
  cases h with
  | @quiet _ _ next _ _ hcall _ hnext =>
    cases next with
    | none => simp [hcall]
    | some t' => simp [hcall, (hnext t' rfl).1]
  | _ => simp [Thread.isNotifying]

theorem Moved.next_cases {t' : Thread Rest Hooks Mitm} (h : Moved state t m) (ht' : t' ∈ m.next) :
    t'.Carries ∧ t'.FreshSnapshot state ∧ m.recorded = [] ∧ m.drained = [] ∧ m.evicted = [] ∧
      m.state.blockedTotal = state.blockedTotal ∨ t' = .notifying := by
  cases h with
  | quiet _ htotal _ _ hnext =>
    exact .inl ⟨(hnext t' ht').2.1, (hnext t' ht').2.2, rfl, rfl, rfl, htotal⟩
  | recorded => exact .inr (some.inj ht').symm
  | _ => cases ht'

/-! ## What holds along every run -/

/-- Updates about to install carry the log of their snapshot, and every recording is
the work of a call that has returned or has only to return. -/
structure Booked (sys : System Rest Hooks Mitm) : Prop where
  carries : ∀ t ∈ sys.threads, t.Carries
  calls : sys.recorded.length = sys.completed + sys.threads.countP Thread.isNotifying

omit [DecidableEq Rest] in
theorem booked_fresh (state : ConfigState Rest Hooks Mitm) : Booked (System.fresh state) :=
  ⟨by simp [System.fresh], by simp [System.fresh]⟩

/-- Every step keeps the books, safe or not. -/
theorem Booked.step (hs : Booked sys) (h : step ext policy sys e = some sys') : Booked sys' := by
  have hcalls := hs.calls
  obtain ⟨call, -, rfl⟩ | ⟨i, reply, t, m, -, ht, hmoved, rfl⟩ := step_cases h
  · constructor
    · intro t ht
      rcases mem_append.1 ht with ht | ht
      · exact hs.carries t ht
      · obtain ⟨call', rfl⟩ := reloading_of_begin (mem_toList.1 ht)
        trivial
    · have hnone : (Call.begin call).toList.countP Thread.isNotifying = 0 := by
        rw [countP_eq_zero]
        intro t ht
        obtain ⟨call', rfl⟩ := reloading_of_begin (mem_toList.1 ht)
        simp [Thread.isNotifying]
      rw [countP_append, hnone]
      exact hcalls
  · constructor
    · intro t' ht'
      rcases mem_threads_after ht' with ht' | ht'
      · exact hs.carries t' ht'
      · rcases hmoved.next_cases ht' with ⟨hcarries, -⟩ | rfl
        · exact hcarries
        · trivial
    · have hcount := countP_threads_after (m := m) ht Thread.isNotifying
      have hmove := hmoved.calls
      simp only [System.after, length_append] at hcount ⊢
      omega

/-! ## The safe steps -/

/-- The step is a safe move, or a call is made. -/
def SafeStep (sys : System Rest Hooks Mitm) : Event Rest Hooks Mitm → Prop
  | .start _ => True
  | .advance i _ => ∀ t, sys.threads[i]? = some t → t.Safe sys.state

/-- Every recorded request, as often as it was recorded, is in the buffer, was
drained, or was evicted. -/
def Accounted (sys : System Rest Hooks Mitm) : Prop :=
  ∀ r, sys.recorded.count r ≤
    sys.state.blocked.count r + sys.drained.count r + sys.evicted.count r

/-- The log of a snapshot covers what had been recorded when it was taken. -/
def Thread.Covers (sys : System Rest Hooks Mitm) : Thread Rest Hooks Mitm → Prop
  | .installing _ _ snapshot _ =>
    snapshot.blockedTotal ≤ sys.recorded.length ∧
    ∀ r, (sys.recorded.take snapshot.blockedTotal).count r ≤
      snapshot.blocked.count r + sys.drained.count r + sys.evicted.count r
  | _ => True

/-- The invariant of the safe steps. -/
structure Logged (sys : System Rest Hooks Mitm) : Prop extends Booked sys where
  total : sys.state.blockedTotal = sys.recorded.length
  accounted : Accounted sys
  covers : ∀ t ∈ sys.threads, t.Covers sys

omit [DecidableEq Rest] in
theorem logged_fresh (hfresh : state.blockedTotal = 0) :
    Logged (System.fresh state) :=
  { booked_fresh state with
    total := hfresh
    accounted := by simp [Accounted, System.fresh]
    covers := by simp [System.fresh] }

omit [DecidableEq Rest] in
/-- What has been recorded, drained and evicted only grows, so a snapshot goes on
covering its part. -/
theorem Thread.Covers.after (h : t.Covers sys) (i : ℕ) (m : Move Rest Hooks Mitm) :
    t.Covers (sys.after i m) := by
  cases t with
  | installing target host snapshot new =>
    obtain ⟨hle, hcovers⟩ := h
    refine ⟨?_, fun r => ?_⟩
    · simp only [System.after, length_append]
      omega
    · have := hcovers r
      simp only [System.after, take_append_of_le_length hle, count_append]
      omega
  | _ => trivial

omit [DecidableEq Rest] in
theorem covers_of_freshSnapshot (htotal : sys.state.blockedTotal = sys.recorded.length)
    (haccounted : Accounted sys) (h : t.FreshSnapshot sys.state) : t.Covers sys := by
  cases t with
  | installing target host snapshot new =>
    obtain rfl : snapshot = sys.state := h
    refine ⟨htotal.le, fun r => ?_⟩
    rw [htotal, take_length]
    exact haccounted r
  | _ => trivial

omit [DecidableEq Rest] in
theorem count_pushBlocked (state : ConfigState Rest Hooks Mitm) (entry r : BlockedRequest) :
    (pushBlocked state entry).1.blocked.count r + (pushBlocked state entry).2.count r =
      state.blocked.count r + [entry].count r := by
  have hsplit := congrArg (List.count r) (take_append_drop
    ((state.blocked ++ [entry]).length - maxBlockedEvents) (state.blocked ++ [entry]))
  rw [count_append, count_append] at hsplit
  simp only [pushBlocked]
  rw [← hsplit, add_comm]

/-- A safe move keeps the counter at the number of recordings, and every recording
accounted for. -/
theorem Logged.moved (hs : Logged sys) (ht : sys.threads[i]? = some t) (hsafe : t.Safe sys.state)
    (hmoved : Moved sys.state t m) :
    m.state.blockedTotal = (sys.recorded ++ m.recorded).length ∧ Accounted (sys.after i m) := by
  have htotal := hs.total
  have hmem := mem_of_getElem? ht
  cases hmoved with
  | quiet hblocked hkept =>
    refine ⟨by simpa only [append_nil, hkept] using htotal, fun r => ?_⟩
    simpa only [System.after, append_nil, hblocked] using hs.accounted r
  | recorded pushed =>
    have hroom : sys.state.blockedTotal < u64Max := hsafe
    refine ⟨?_, fun r => ?_⟩
    · simp only [pushBlocked, length_append, length_singleton]
      omega
    · have hacc := hs.accounted r
      have hpush := count_pushBlocked sys.state pushed r
      simp only [System.after, append_nil, count_append]
      omega
  | returned =>
    refine ⟨by simpa using htotal, fun r => ?_⟩
    simpa only [System.after, append_nil] using hs.accounted r
  | drained =>
    refine ⟨by simpa using htotal, fun r => ?_⟩
    have hacc := hs.accounted r
    simp only [System.after, append_nil, count_append, count_nil]
    omega
  | installed hguard =>
    -- the snapshot is as old as the last recording
    obtain ⟨hblocked, hcount⟩ := hs.carries _ hmem
    obtain ⟨-, hcovers⟩ := hs.covers _ hmem
    have hsame := hsafe hguard
    refine ⟨by simpa only [append_nil, hcount, hsame] using htotal, fun r => ?_⟩
    have hacc := hcovers r
    rw [hsame, htotal, take_length] at hacc
    simpa only [System.after, append_nil, hblocked] using hacc
  | @forced new =>
    have hsame : new.blockedTotal = sys.state.blockedTotal := hsafe
    refine ⟨by simpa only [append_nil, installForced, hsame] using htotal, fun r => ?_⟩
    simpa only [System.after, append_nil, installForced] using hs.accounted r

/-- The step lemma: safe steps keep the log whole. -/
theorem Logged.step (hs : Logged sys) (hsafe : SafeStep sys e)
    (h : step ext policy sys e = some sys') : Logged sys' := by
  have hbooked := hs.toBooked.step h
  obtain ⟨call, -, rfl⟩ | ⟨i, reply, t, m, rfl, ht, hmoved, rfl⟩ := step_cases h
  · refine { hbooked with total := hs.total, accounted := hs.accounted, covers := fun t ht => ?_ }
    rcases mem_append.1 ht with ht | ht
    · cases t with
      | installing => exact hs.covers _ ht
      | _ => trivial
    · obtain ⟨call', rfl⟩ := reloading_of_begin (mem_toList.1 ht)
      trivial
  · obtain ⟨htotal, haccounted⟩ := hs.moved ht (hsafe t ht) hmoved
    refine { hbooked with total := htotal, accounted := haccounted, covers := fun t' ht' => ?_ }
    rcases mem_threads_after ht' with ht' | ht'
    · exact (hs.covers t' ht').after i m
    · rcases hmoved.next_cases ht' with ⟨-, hfresh, -⟩ | rfl
      · exact (covers_of_freshSnapshot hs.total hs.accounted hfresh).after i m
      · trivial

theorem Logged.stepGrows (hs : Logged sys) (hsafe : SafeStep sys e) :
    StepGrows (NetworkProxy.step ext policy) (·.state.blockedTotal) sys e := by
  intro sys' h
  have htotal := (hs.step hsafe h).total
  have hold := hs.total
  obtain ⟨call, -, rfl⟩ | ⟨i, reply, t, m, rfl, ht, hmoved, rfl⟩ := step_cases h
  · exact le_rfl
  · simp only [System.after, length_append] at htotal ⊢
    omega

/-! ## Each request once -/

/-- Every recorded request, as often as it was recorded, is in exactly one place. -/
def AccountedOnce (sys : System Rest Hooks Mitm) : Prop :=
  ∀ r, sys.recorded.count r =
    sys.state.blocked.count r + sys.drained.count r + sys.evicted.count r

/-- The step keeps the buffer in this sense, or a call is made. -/
def BufferKept (sys : System Rest Hooks Mitm) : Event Rest Hooks Mitm → Prop
  | .start _ => True
  | .advance i _ => ∀ t, sys.threads[i]? = some t → t.KeepsBuffer sys.state

/-- The step lemma: only an install can put requests in two places, or lose them. -/
theorem accountedOnce_step_iff (hbooked : Booked sys) (hs : AccountedOnce sys)
    (h : step ext policy sys e = some sys') : AccountedOnce sys' ↔ BufferKept sys e := by
  obtain ⟨call, rfl, rfl⟩ | ⟨i, reply, t, m, rfl, ht, hmoved, rfl⟩ := step_cases h
  · exact iff_of_true hs trivial
  have hkept : BufferKept sys (.advance i reply) ↔ t.KeepsBuffer sys.state := by
    refine ⟨fun h => h t ht, fun h t' ht' => ?_⟩
    rw [ht] at ht'
    exact some.inj ht' ▸ h
  rw [hkept]
  cases hmoved with
  | quiet hblocked _ _ hsafe =>
    refine iff_of_true (fun r => ?_) hsafe.2
    simpa only [System.after, append_nil, hblocked] using hs r
  | recorded pushed =>
    refine iff_of_true (fun r => ?_) trivial
    have hacc := hs r
    have hpush := count_pushBlocked sys.state pushed r
    simp only [System.after, append_nil, count_append]
    omega
  | returned =>
    refine iff_of_true (fun r => ?_) trivial
    simpa only [System.after, append_nil] using hs r
  | drained =>
    refine iff_of_true (fun r => ?_) trivial
    have hacc := hs r
    simp only [System.after, append_nil, count_append, count_nil]
    omega
  | installed hguard =>
    obtain ⟨hblocked, -⟩ := hbooked.carries _ (mem_of_getElem? ht)
    have hcount : ∀ r, sys.state.blocked.count r + sys.drained.count r + sys.evicted.count r =
        sys.recorded.count r := fun r => (hs r).symm
    simp only [AccountedOnce, System.after, append_nil, hblocked, ← hcount]
    refine ⟨fun hsame _ => perm_iff_count.2 fun r => ?_, fun hperm r => ?_⟩
    · have := hsame r
      omega
    · rw [(hperm hguard).count_eq]
  | forced =>
    refine iff_of_true (fun r => ?_) trivial
    simpa only [System.after, append_nil, installForced] using hs r

/-! ## Only the safe steps -/

/-- A snapshot that the call holds is not ahead of this state. -/
def Thread.NotAhead (state : ConfigState Rest Hooks Mitm) : Thread Rest Hooks Mitm → Prop
  | .installing _ _ snapshot _ => snapshot.blockedTotal ≤ state.blockedTotal
  | _ => True

omit [DecidableEq Rest] in
theorem Thread.NotAhead.mono {state' : ConfigState Rest Hooks Mitm} (h : t.NotAhead state)
    (hle : state.blockedTotal ≤ state'.blockedTotal) : t.NotAhead state' := by
  cases t with
  | installing target host snapshot new => exact le_trans h hle
  | _ => trivial

/-- As long as the counter does not decrease, no snapshot is ahead of the state. -/
theorem notAhead_step (hs : ∀ t ∈ sys.threads, t.NotAhead sys.state)
    (h : step ext policy sys e = some sys')
    (hgrows : sys.state.blockedTotal ≤ sys'.state.blockedTotal) :
    ∀ t ∈ sys'.threads, t.NotAhead sys'.state := by
  obtain ⟨call, -, rfl⟩ | ⟨i, reply, t, m, -, ht, hmoved, rfl⟩ := step_cases h
  · intro t ht
    rcases mem_append.1 ht with ht | ht
    · exact hs t ht
    · obtain ⟨call', rfl⟩ := reloading_of_begin (mem_toList.1 ht)
      trivial
  · intro t' ht'
    rcases mem_threads_after ht' with ht' | ht'
    · exact (hs t' ht').mono hgrows
    · rcases hmoved.next_cases ht' with ⟨-, hfresh, -⟩ | rfl
      · cases t' with
        | installing target host snapshot new =>
          obtain rfl : snapshot = sys.state := hfresh
          exact hgrows
        | _ => trivial
      · trivial

/-- A step that does not decrease the counter and leaves it below its maximum moves
the counter at least as far as it records, and exactly as far only if it is safe. -/
theorem slack_step (hbooked : Booked sys) (hahead : ∀ t ∈ sys.threads, t.NotAhead sys.state)
    (h : step ext policy sys e = some sys')
    (hgrows : sys.state.blockedTotal ≤ sys'.state.blockedTotal)
    (hroom : sys'.state.blockedTotal < u64Max) :
    sys.state.blockedTotal + sys'.recorded.length ≤
        sys'.state.blockedTotal + sys.recorded.length ∧
      (sys.state.blockedTotal + sys'.recorded.length =
        sys'.state.blockedTotal + sys.recorded.length → SafeStep sys e) := by
  obtain ⟨call, rfl, rfl⟩ | ⟨i, reply, t, m, rfl, ht, hmoved, rfl⟩ := step_cases h
  · exact ⟨le_rfl, fun _ => trivial⟩
  · have hmem := mem_of_getElem? ht
    have hsafe : t.Safe sys.state → SafeStep sys (.advance i reply) := by
      intro hsafe t' ht'
      rw [ht] at ht'
      exact some.inj ht' ▸ hsafe
    simp only [System.after, length_append] at hgrows hroom ⊢
    cases hmoved with
    | quiet _ htotal _ hquiet => exact ⟨by simp [htotal], fun _ => hsafe hquiet.1⟩
    | recorded pushed =>
      simp only [pushBlocked, length_singleton] at hroom ⊢
      exact ⟨by omega, fun _ => hsafe (show _ < _ by omega)⟩
    | returned => exact ⟨by simp, fun _ => hsafe trivial⟩
    | drained => exact ⟨by simp, fun _ => hsafe trivial⟩
    | @installed target host snapshot new hguard =>
      have hcount : new.blockedTotal = snapshot.blockedTotal := (hbooked.carries _ hmem).2
      have hle : snapshot.blockedTotal ≤ sys.state.blockedTotal := hahead _ hmem
      rw [hcount] at hgrows
      exact ⟨by simp [hcount, hgrows], fun _ => hsafe fun _ => le_antisymm hle hgrows⟩
    | @forced new =>
      simp only [installForced, length_nil] at hgrows ⊢
      exact ⟨by omega, fun heq => hsafe (show _ = _ by omega)⟩

/-- The run lemma: a run that never decreases the counter and ends with the counter
as far ahead of the recordings as it began has made safe steps only. -/
theorem slack_run {last : System Rest Hooks Mitm} {events : List (Event Rest Hooks Mitm)}
    (hbooked : Booked sys) (hahead : ∀ t ∈ sys.threads, t.NotAhead sys.state)
    (hrun : run (step ext policy) sys events = some last)
    (hgrows : Along (step ext policy) (StepGrows (step ext policy) (·.state.blockedTotal))
      sys events) (hroom : last.state.blockedTotal < u64Max) :
    sys.state.blockedTotal + last.recorded.length ≤
        last.state.blockedTotal + sys.recorded.length ∧
      (sys.state.blockedTotal + last.recorded.length =
        last.state.blockedTotal + sys.recorded.length →
        Along (step ext policy) SafeStep sys events) := by
  induction events generalizing sys with
  | nil =>
    obtain rfl := some.inj hrun
    exact ⟨le_rfl, fun _ => trivial⟩
  | cons e events ih =>
    obtain ⟨sys', he, hrun⟩ := run_cons_eq_some.1 hrun
    have hrest := hgrows.2 sys' he
    have hle := hrest.le_of_run hrun
    obtain ⟨hstep, hsafe⟩ := slack_step hbooked hahead he (hgrows.1 sys' he) (by omega)
    obtain ⟨hslack, hsafes⟩ := ih (hbooked.step he) (notAhead_step hahead he (hgrows.1 sys' he))
      hrun hrest
    refine ⟨by omega, fun heq => ⟨hsafe (by omega), fun sys'' he' => ?_⟩⟩
    obtain rfl : sys' = sys'' := some.inj (he.symm.trans he')
    exact hsafes (by omega)

/-- **The log of blocked requests.**  Take any interleaving of calls, from a state
with an empty log.  If its steps are safe, the counter never decreases, it equals
the number of completed recordings once no call is in progress, and every recorded
request is buffered, drained or evicted.  And if the run comes to rest with fewer
than `u64::MAX` recordings, that happens along safe steps only.  Every request is in exactly one
place throughout the run exactly if each install finds the buffer of its snapshot. -/
theorem blocked_total_accurate_iff (ext : Externals Rest Hooks Mitm) (policy : LocalBindingPolicy)
    (state : ConfigState Rest Hooks Mitm) (events : List (Event Rest Hooks Mitm))
    (last : System Rest Hooks Mitm) (hfresh : state.blockedTotal = 0)
    (hrun : run (step ext policy) (System.fresh state) events = some last) :
    (Along (step ext policy) SafeStep (System.fresh state) events →
      Along (step ext policy) (StepGrows (step ext policy) (·.state.blockedTotal))
          (System.fresh state) events ∧
        (last.threads = [] → last.state.blockedTotal = last.completed) ∧ Accounted last) ∧
    (last.threads = [] → last.recorded.length < u64Max →
      (Along (step ext policy) (StepGrows (step ext policy) (·.state.blockedTotal))
          (System.fresh state) events ∧
        last.state.blockedTotal = last.completed ∧ Accounted last ↔
      Along (step ext policy) SafeStep (System.fresh state) events)) ∧
    (state.blocked = [] →
      ((∀ done, done <+: events → ∀ sys, run (step ext policy) (System.fresh state) done = some sys →
        AccountedOnce sys) ↔ Along (step ext policy) BufferKept (System.fresh state) events)) := by
  have hbooked : Booked last := run_invariant (fun s e s' hs he => hs.step he) (booked_fresh state) hrun
  have hquiet : last.threads = [] → last.recorded.length = last.completed := by
    intro hthreads
    simpa only [hthreads, countP_nil, add_zero] using hbooked.calls
  have hsound : Along (step ext policy) SafeStep (System.fresh state) events →
      Along (step ext policy) (StepGrows (step ext policy) (·.state.blockedTotal))
          (System.fresh state) events ∧ Logged last := by
    intro hsafe
    have hstep : ∀ s e s', Logged s → SafeStep s e → step ext policy s e = some s' → Logged s' :=
      fun s e s' hs hsafe he => hs.step hsafe he
    exact ⟨Along.of_invariant hstep (fun s e hs hsafe => hs.stepGrows hsafe) (logged_fresh hfresh)
      hsafe, hsafe.invariant hstep (logged_fresh hfresh) hrun⟩
  refine ⟨fun hsafe => ?_, fun hthreads hroom => ⟨?_, fun hsafe => ?_⟩, fun hempty => ?_⟩
  · obtain ⟨hgrows, hlogged⟩ := hsound hsafe
    exact ⟨hgrows, fun hthreads => hlogged.total.trans (hquiet hthreads), hlogged.accounted⟩
  · rintro ⟨hgrows, htotal, -⟩
    -- at rest the counter is where the recordings are, so no step was unsafe
    have hcount := hquiet hthreads
    obtain ⟨-, hsafe⟩ := slack_run (booked_fresh state) (by simp [System.fresh]) hrun hgrows
      (by omega)
    refine hsafe ?_
    simp only [System.fresh, hfresh, length_nil]
    omega
  · obtain ⟨hgrows, hlogged⟩ := hsound hsafe
    exact ⟨hgrows, hlogged.total.trans (hquiet hthreads), hlogged.accounted⟩
  · have hgood : Along (step ext policy) (fun sys _ => Booked sys) (System.fresh state) events :=
      Along.of_invariant (fun s e s' hs _ he => hs.step he) (fun s e hs _ => hs) (booked_fresh state)
        .trivial
    have honce : AccountedOnce (System.fresh state) := by simp [AccountedOnce, System.fresh, hempty]
    exact along_iff_prefixes (fun s e s' hs hbooked he => accountedOnce_step_iff hbooked hs he) honce
      hgood hrun

end

/-- A blocked request. -/
def blockedExample : BlockedRequest where
  host := "evil.com".toList
  reason := "denied".toList
  client := none
  method := none
  mode := none
  protocol := "http".toList
  executionId := none
  decision := none
  source := none
  port := some 80
  timestamp := 0

/-- One recording from its call to its return. -/
def recordRun (thread : ℕ) : List (Event Unit Unit Unit) :=
  [.start (.recordBlocked none blockedExample), .advance thread .unchanged,
    .advance thread .notAsked, .advance thread .notAsked]

/-- A recording whose sections alternate with those of a `drain_blocked`, which takes the request
before the recording returns. -/
def drainedRun : List (Event Unit Unit Unit) :=
  [.start (.recordBlocked none blockedExample), .start .drainBlocked, .advance 0 .unchanged,
    .advance 0 .unchanged, .advance 0 .notAsked, .advance 0 .notAsked, .advance 0 .notAsked]

/-- The theorem at that run. -/
theorem blocked_total_accurate_record :
    ∃ last, run (step plainExternals .defaultFalse) (System.fresh allowAllState) drainedRun =
        some last ∧ last.threads = [] ∧ last.drained = [blockedExample] ∧ last.state.blocked = [] ∧
      last.state.blockedTotal = last.completed ∧ Accounted last := by
  have hsafe : Along (step plainExternals .defaultFalse) SafeStep (System.fresh allowAllState)
      drainedRun := by
    refine ⟨trivial, fun s hs => ?_⟩
    obtain rfl := some.inj hs
    refine ⟨trivial, fun s hs => ?_⟩
    obtain rfl := some.inj hs
    refine ⟨fun t ht => some.inj ht ▸ trivial, fun s hs => ?_⟩
    obtain rfl := some.inj hs
    refine ⟨fun t ht => some.inj ht ▸ trivial, fun s hs => ?_⟩
    obtain rfl := some.inj hs
    refine ⟨fun t ht => ?_, fun s hs => ?_⟩
    · obtain rfl := some.inj ht
      show 0 < u64Max
      decide
    obtain rfl := some.inj hs
    refine ⟨fun t ht => some.inj ht ▸ trivial, fun s hs => ?_⟩
    obtain rfl := some.inj hs
    exact ⟨fun t ht => some.inj ht ▸ trivial, fun s hs => trivial⟩
  obtain ⟨hsound, -⟩ := blocked_total_accurate_iff plainExternals .defaultFalse allowAllState
    drainedRun _ rfl rfl
  obtain ⟨-, htotal, haccounted⟩ := hsound hsafe
  exact ⟨_, rfl, rfl, rfl, rfl, htotal rfl, haccounted⟩

/-- A recording between the two sections of an `add_denied_domain`: the install puts
the empty log back, the counter falls to `0` and the request is gone. -/
theorem blocked_request_lost :
    (run (step plainExternals .defaultFalse) (System.fresh allowAllState)
      ([.start (.updateDomainList .deny "evil.com".toList), .advance 0 .unchanged,
        .advance 0 .notAsked] ++ recordRun 1 ++ [.advance 0 .notAsked])).map
      (fun last => (last.threads.length, last.completed, last.state.blockedTotal, last.recorded,
        last.state.blocked ++ last.drained ++ last.evicted)) =
      some (0, 1, 0, [blockedExample], []) := by
  decide

end NetworkProxy
