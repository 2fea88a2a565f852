/-
# The agent registry

The registry of a session limits how many agents run.  It has three parts that are updated one
after the other: a counter, a map from agent paths to metadata, and a map from threads to paths.
A spawn first reserves a slot, then may reserve a path, and then either commits an agent or is
dropped.
-/
import BetterCodex.Runs
import BetterCodex.RustStr
import BetterCodex.SortedMap

namespace Agents

open RustStr SortedMap Option

/-! ## Agents -/

/-- `ThreadId`, as the text that it is displayed as. -/
abbrev ThreadId := Text

/-- `AgentPath`: an absolute path. -/
structure AgentPath where
  text : Text
  absolute : text.head? = some '/'
deriving DecidableEq

/-- `AgentPath::ROOT`. -/
def rootText : Text := "/root".toList

def AgentPath.root : AgentPath where
  text := rootText
  absolute := rfl

def AgentPath.isRoot (path : AgentPath) : Bool := path.text = rootText

structure AgentMetadata where
  agentId : Option ThreadId := none
  agentPath : Option AgentPath := none
  agentNickname : Option Text := none
  agentRole : Option Text := none

namespace AgentMetadata

/-- The agent is the root of the session. -/
def isRoot (metadata : AgentMetadata) : Bool := metadata.agentPath.any AgentPath.isRoot

/-- The agent is registered and is not the root. -/
def isLive (metadata : AgentMetadata) : Bool := metadata.agentId.isSome && !metadata.isRoot

/-- The key of an agent that has no path. -/
def threadKey (thread : ThreadId) : Text := "thread:".toList ++ thread

/-- The key of an agent. -/
def key (metadata : AgentMetadata) (thread : ThreadId) : Text :=
  metadata.agentPath.elim (threadKey thread) AgentPath.text

/-- The metadata may stand at the key. -/
def HasKey (metadata : AgentMetadata) (key : Text) : Prop :=
  match metadata.agentPath with
  | some path => key = path.text
  | none => ∃ thread, metadata.agentId = some thread ∧ key = threadKey thread

variable {metadata : AgentMetadata}

theorem hasKey_of_path {path : AgentPath} (h : metadata.agentPath = some path) :
    metadata.HasKey path.text := by
  unfold HasKey
  rw [h]

theorem hasKey_key {thread : ThreadId} (h : metadata.agentId = some thread) :
    metadata.HasKey (metadata.key thread) := by
  unfold HasKey key
  cases metadata.agentPath with
  | none => exact ⟨thread, h, rfl⟩
  | some path => rfl

theorem isRoot_iff {key : Text} (h : metadata.HasKey key) :
    metadata.isRoot = true ↔ key = rootText := by
  unfold HasKey at h
  unfold isRoot
  cases hpath : metadata.agentPath with
  | none =>
    rw [hpath] at h
    obtain ⟨thread, -, rfl⟩ := h
    refine iff_of_false Bool.false_ne_true fun hroot => ?_
    have hhead : some 't' = some '/' := congrArg List.head? hroot
    exact absurd hhead (by decide)
  | some path =>
    rw [hpath] at h
    change key = path.text at h
    rw [h, any_some, AgentPath.isRoot, decide_eq_true_eq]

end AgentMetadata

/-! ## The two maps -/

structure ActiveAgents where
  agentTree : List (Text × AgentMetadata) := []
  threadPaths : List (ThreadId × Text) := []
  usedAgentNicknames : List Text := []
  nicknameResetCount : ℕ := 0
  agentTree_sorted : SortedMap.Sorted agentTree := by exact .nil
  threadPaths_sorted : SortedMap.Sorted threadPaths := by exact .nil
  hasKey : ∀ key metadata, SortedMap.get key agentTree = some metadata → metadata.HasKey key := by
    exact nofun

namespace ActiveAgents

variable (agents : ActiveAgents)

/-- The metadata at a path. -/
def metadataAt (key : Text) : Option AgentMetadata :=
  get key agents.agentTree

variable (thread : ThreadId)

/-- The path of a thread. -/
def pathOf : Option Text :=
  get thread agents.threadPaths

/-- `agent_tree.insert`. -/
def insertMetadata (key : Text) (metadata : AgentMetadata)
    (h : metadata.HasKey key) : ActiveAgents :=
  { agents with
    agentTree := insert key metadata agents.agentTree
    agentTree_sorted := agents.agentTree_sorted.insert
    hasKey := by
      intro key' metadata' h'
      rw [get_insert] at h'
      split_ifs at h' with hkey
      · rw [← some.inj h', hkey]
        exact h
      · exact agents.hasKey key' metadata' h' }

/-- `agent_tree.remove`. -/
def removeMetadata (key : Text) : ActiveAgents :=
  { agents with
    agentTree := erase key agents.agentTree
    agentTree_sorted := agents.agentTree_sorted.erase
    hasKey := fun key' metadata' h' => agents.hasKey key' metadata' (get_of_get_erase h') }

/-- `thread_paths.insert`. -/
def insertPath (key : Text) : ActiveAgents :=
  { agents with
    threadPaths := insert thread key agents.threadPaths
    threadPaths_sorted := agents.threadPaths_sorted.insert }

/-- `thread_paths.remove`. -/
def removePath : ActiveAgents :=
  { agents with
    threadPaths := erase thread agents.threadPaths
    threadPaths_sorted := agents.threadPaths_sorted.erase }

open AgentMetadata

/-- `AgentRegistry::live_agents`. -/
def liveAgents : List AgentMetadata :=
  (agents.agentTree.map Prod.snd).filter isLive

/-- The first half of `AgentRegistry::register_spawned_thread`: the thread gets a path, and what
stands at its previous path is removed. -/
def takePath (key : Text) : ActiveAgents :=
  let moved := agents.insertPath thread key
  match agents.pathOf thread with
  | some previousPath => if previousPath ≠ key then moved.removeMetadata previousPath else moved
  | none => moved

/-- The second half of `AgentRegistry::register_spawned_thread`: the metadata is put at its key,
and the thread that stood there loses its path. -/
def takeKey (key : Text) (metadata : AgentMetadata) (h : metadata.HasKey key) : ActiveAgents :=
  let put := agents.insertMetadata key metadata h
  match (agents.metadataAt key).bind agentId with
  | some previousThread => if previousThread ≠ thread then put.removePath previousThread else put
  | none => put

/-- The registry remembers the nickname of an agent. -/
def useNickname (nickname : Option Text) : ActiveAgents :=
  { agents with usedAgentNicknames := nickname.toList ++ agents.usedAgentNicknames }

/-- `AgentRegistry::register_spawned_thread`. -/
def registerSpawnedThread (metadata : AgentMetadata) : ActiveAgents :=
  match hid : metadata.agentId with
  | none => agents
  | some thread =>
    let key := metadata.key thread
    ((agents.useNickname metadata.agentNickname).takePath thread key).takeKey thread key metadata
      (hasKey_key hid)

/-- The lock section of `AgentRegistry::release_spawned_thread`: whether a counted agent was
removed, and the agents that are left. -/
def releaseSpawnedThread : Bool × ActiveAgents :=
  match agents.pathOf thread with
  | none => (false, agents)
  | some path =>
    ((agents.metadataAt path).any fun metadata => !metadata.isRoot,
      (agents.removePath thread).removeMetadata path)

/-- `AgentRegistry::register_root_thread`. -/
def registerRootThread : ActiveAgents :=
  match agents.metadataAt rootText with
  | some metadata =>
    match metadata.agentId with
    | some rootThread => agents.insertPath rootThread rootText
    | none => agents
  | none =>
    (agents.insertMetadata AgentPath.root.text
      { agentId := some thread, agentPath := some AgentPath.root }
      (hasKey_of_path rfl)).insertPath thread rootText

/-- `AgentRegistry::reserve_agent_path`; `none` is an error for a path that exists. -/
def reserveAgentPath (path : AgentPath) : Option ActiveAgents :=
  match agents.metadataAt path.text with
  | some _ => none
  | none =>
    some (agents.insertMetadata path.text { agentPath := some path }
      (hasKey_of_path rfl))

/-- `AgentRegistry::release_reserved_agent_path`. -/
def releaseReservedAgentPath (path : AgentPath) : ActiveAgents :=
  if (agents.metadataAt path.text).any fun metadata => metadata.agentId.isNone then
    agents.removeMetadata path.text
  else agents

def formatAgentNickname (name : Text) (nicknameResetCount : ℕ) : Text :=
  if nicknameResetCount = 0 then name
  else
    let value := nicknameResetCount + 1
    let suffix :=
      if 11 ≤ value % 100 ∧ value % 100 ≤ 13 then "th"
      else if value % 10 = 1 then "st"
      else if value % 10 = 2 then "nd"
      else if value % 10 = 3 then "rd"
      else "th"
    name ++ " the ".toList ++ (toString value).toList ++ suffix.toList

/-- `AgentRegistry::reserve_agent_nickname`; `choice` is the random choice among the names. -/
def reserveAgentNickname (names : List Text) (preferred : Option Text)
    (choice : ℕ) : Option (Text × ActiveAgents) :=
  match preferred with
  | some preferred =>
    some (preferred, { agents with usedAgentNicknames := preferred :: agents.usedAgentNicknames })
  | none =>
    let available := (names.map (formatAgentNickname · agents.nicknameResetCount)).filter
      fun name => !agents.usedAgentNicknames.contains name
    match available[choice % available.length]? with
    | some name => some (name, { agents with usedAgentNicknames := name :: agents.usedAgentNicknames })
    | none =>
      names[choice % names.length]?.map fun name =>
        let name := formatAgentNickname name (agents.nicknameResetCount + 1)
        (name,
          { agents with
            usedAgentNicknames := [name]
            nicknameResetCount := agents.nicknameResetCount + 1 })

end ActiveAgents

/-! ## The registry -/

/-- `SpawnReservation`, while it is active. -/
structure SpawnReservation where
  reservedAgentNickname : Option Text := none
  reservedAgentPath : Option AgentPath := none
  /-- The reservation is being dropped: its path is released and the counter not yet lowered. -/
  dropping : Bool := false

/-- `AgentRegistry`, with the reservations that its callers hold and the number of calls that have
removed an agent and have not yet lowered the counter. -/
structure AgentRegistry where
  activeAgents : ActiveAgents := {}
  totalCount : ℕ := 0
  reservations : List (ℕ × SpawnReservation) := []
  nextReservation : ℕ := 0
  releasing : ℕ := 0
  reservations_sorted : SortedMap.Sorted reservations := by exact .nil
  reservations_lt : ∀ reservation ∈ reservations, reservation.1 < nextReservation := by
    exact nofun

namespace AgentRegistry

/-- The reservation with a handle, if it is still in use. -/
def reservation (registry : AgentRegistry) (handle : ℕ) : Option SpawnReservation :=
  (get handle registry.reservations).filter fun reservation => !reservation.dropping

variable (registry : AgentRegistry)

/-- The registry with a reservation changed. -/
def setReservation (handle : ℕ) (reservation : SpawnReservation) :
    AgentRegistry :=
  if h : (get handle registry.reservations).isSome then
    { registry with
      reservations := insert handle reservation registry.reservations
      reservations_sorted := registry.reservations_sorted.insert
      reservations_lt := by
        intro entry hentry
        rcases mem_insert hentry with rfl | hmem
        · obtain ⟨old, hold⟩ := isSome_iff_exists.1 h
          exact registry.reservations_lt (handle, old) (mem_of_get hold)
        · exact registry.reservations_lt _ hmem }
  else registry

/-- The registry without a reservation. -/
def removeReservation (handle : ℕ) : AgentRegistry :=
  { registry with
    reservations := erase handle registry.reservations
    reservations_sorted := registry.reservations_sorted.erase
    reservations_lt := fun entry hentry =>
      registry.reservations_lt entry (List.mem_of_mem_filter hentry) }

/-- `AgentRegistry::reserve_spawn_slot`; `none` is the error that the limit is reached.  The
handle of the reservation is the old `nextReservation`. -/
def reserveSpawnSlot (maxThreads : Option ℕ) : Option AgentRegistry :=
  if maxThreads.any fun maxThreads => maxThreads ≤ registry.totalCount then none
  else
    some
      { registry with
        totalCount := registry.totalCount + 1
        reservations := insert registry.nextReservation {} registry.reservations
        nextReservation := registry.nextReservation + 1
        reservations_sorted := registry.reservations_sorted.insert
        reservations_lt := by
          intro entry hentry
          rcases mem_insert hentry with rfl | hmem
          · exact Nat.lt_succ_self _
          · exact Nat.lt_succ_of_lt (registry.reservations_lt _ hmem) }

/-- `SpawnReservation::reserve_agent_nickname_with_preference`. -/
def reserveAgentNickname (registry : AgentRegistry) (handle : ℕ) (names : List Text)
    (preferred : Option Text) (choice : ℕ) : Option AgentRegistry := do
  let reservation ← registry.reservation handle
  let (nickname, agents) ← registry.activeAgents.reserveAgentNickname names preferred choice
  some (({ registry with activeAgents := agents } : AgentRegistry).setReservation handle
    { reservation with reservedAgentNickname := some nickname })

/-- `SpawnReservation::reserve_agent_path`. -/
def reserveAgentPath (registry : AgentRegistry) (handle : ℕ) (path : AgentPath) :
    Option AgentRegistry := do
  let reservation ← registry.reservation handle
  let agents ← registry.activeAgents.reserveAgentPath path
  some (({ registry with activeAgents := agents } : AgentRegistry).setReservation handle
    { reservation with reservedAgentPath := some path })

/-- `SpawnReservation::commit`. -/
def commit (handle : ℕ) (metadata : AgentMetadata) :
    Option AgentRegistry := do
  let _ ← registry.reservation handle
  some (({ registry with
    activeAgents := registry.activeAgents.registerSpawnedThread metadata } :
      AgentRegistry).removeReservation handle)

/-- The first part of `Drop for SpawnReservation`: the path is released. -/
def dropPath (handle : ℕ) : Option AgentRegistry := do
  let reservation ← registry.reservation handle
  let agents := reservation.reservedAgentPath.elim registry.activeAgents
    registry.activeAgents.releaseReservedAgentPath
  some (({ registry with activeAgents := agents } : AgentRegistry).setReservation handle
    { reservation with reservedAgentPath := none, dropping := true })

/-- The second part of `Drop for SpawnReservation`: the counter is lowered. -/
def dropCount (handle : ℕ) : Option AgentRegistry := do
  let reservation ← get handle registry.reservations
  if reservation.dropping then
    some (({ registry with totalCount := registry.totalCount - 1 } :
      AgentRegistry).removeReservation handle)
  else none

/-- The lock section of `AgentRegistry::release_spawned_thread`. -/
def releaseSpawnedThread (registry : AgentRegistry) (thread : ThreadId) : AgentRegistry :=
  let released := registry.activeAgents.releaseSpawnedThread thread
  { registry with
    activeAgents := released.2
    releasing := if released.1 then registry.releasing + 1 else registry.releasing }

/-- The end of `AgentRegistry::release_spawned_thread`, for one that removed a counted agent. -/
def releaseCount : Option AgentRegistry :=
  if registry.releasing = 0 then none
  else
    some
      { registry with
        totalCount := registry.totalCount - 1
        releasing := registry.releasing - 1 }

def registerRootThread (registry : AgentRegistry) (thread : ThreadId) : AgentRegistry :=
  { registry with activeAgents := registry.activeAgents.registerRootThread thread }

end AgentRegistry

/-- The steps of the callers of a registry. -/
inductive Step
  | reserveSpawnSlot (maxThreads : Option ℕ)
  | reserveAgentNickname (handle : ℕ) (names : List Text) (preferred : Option Text) (choice : ℕ)
  | reserveAgentPath (handle : ℕ) (path : AgentPath)
  | commit (handle : ℕ) (metadata : AgentMetadata)
  | dropPath (handle : ℕ)
  | dropCount (handle : ℕ)
  | releaseSpawnedThread (thread : ThreadId)
  | releaseCount
  | registerRootThread (thread : ThreadId)

namespace AgentRegistry

/-- One step; a step that fails or is not possible changes nothing. -/
def step (registry : AgentRegistry) : Step → AgentRegistry
  | .reserveSpawnSlot maxThreads => (registry.reserveSpawnSlot maxThreads).getD registry
  | .reserveAgentNickname handle names preferred choice =>
    (registry.reserveAgentNickname handle names preferred choice).getD registry
  | .reserveAgentPath handle path => (registry.reserveAgentPath handle path).getD registry
  | .commit handle metadata => (registry.commit handle metadata).getD registry
  | .dropPath handle => (registry.dropPath handle).getD registry
  | .dropCount handle => (registry.dropCount handle).getD registry
  | .releaseSpawnedThread thread => registry.releaseSpawnedThread thread
  | .releaseCount => registry.releaseCount.getD registry
  | .registerRootThread thread => registry.registerRootThread thread

/-- The registry after some steps. -/
def run (steps : List Step) : AgentRegistry := steps.foldl step {}

end AgentRegistry

/-! ## Accounts -/

/-- The two maps are inverse to each other on the registered agents. -/
def ActiveAgents.Inverse (agents : ActiveAgents) : Prop :=
  ∀ thread key, agents.pathOf thread = some key ↔
    (agents.metadataAt key).bind AgentMetadata.agentId = some thread

/-- **The accounts of a registry.**  The counter is the number of registered agents other than
the root, of reservations, and of calls that are about to lower it; and the two maps are inverse
to each other. -/
structure Accounted (registry : AgentRegistry) : Prop where
  count : registry.totalCount = registry.activeAgents.liveAgents.length +
    registry.reservations.length + registry.releasing
  inverse : registry.activeAgents.Inverse

/-- The steps that keep the accounts: a commit brings an agent with a thread that is not
registered, unless as the root, and a path at which no agent is registered, and that is not the
root's; a root is registered with a thread that is not yet registered. -/
def Sound (registry : AgentRegistry) : Step → Prop
  | .commit handle metadata =>
    (registry.reservation handle).isSome = true →
      ∃ thread, metadata.agentId = some thread ∧ metadata.isRoot = false ∧
        (registry.activeAgents.pathOf thread = none ∨
          registry.activeAgents.pathOf thread = some rootText) ∧
        (registry.activeAgents.metadataAt (metadata.key thread)).bind AgentMetadata.agentId = none
  | .registerRootThread thread =>
    registry.activeAgents.metadataAt rootText = none → registry.activeAgents.pathOf thread = none
  | _ => True

/-! ### How the maps change -/

namespace ActiveAgents

variable (agents : ActiveAgents)
variable (key key' : Text) (metadata : AgentMetadata) (h : metadata.HasKey key)

theorem metadataAt_insertMetadata :
    (agents.insertMetadata key metadata h).metadataAt key' =
      if key' = key then some metadata else agents.metadataAt key' := by
  refine (get_insert key' key metadata agents.agentTree).trans ?_
  split_ifs
  · rfl
  · rfl

theorem metadataAt_removeMetadata :
    (agents.removeMetadata key).metadataAt key' =
      if key' = key then none else agents.metadataAt key' := by
  refine (get_erase key' key agents.agentTree).trans ?_
  split_ifs
  · rfl
  · rfl

variable (thread : ThreadId) (path : Text)

@[simp] theorem metadataAt_insertPath (key : Text) :
    (agents.insertPath thread path).metadataAt key = agents.metadataAt key := rfl

@[simp] theorem metadataAt_removePath (key : Text) :
    (agents.removePath thread).metadataAt key = agents.metadataAt key := rfl

@[simp] theorem liveAgents_insertPath :
    (agents.insertPath thread path).liveAgents = agents.liveAgents := rfl

@[simp] theorem liveAgents_removePath :
    (agents.removePath thread).liveAgents = agents.liveAgents := rfl

variable (thread' : ThreadId)

theorem pathOf_insertPath (path : Text) :
    (agents.insertPath thread path).pathOf thread' =
      if thread' = thread then some path else agents.pathOf thread' := by
  refine (get_insert thread' thread path agents.threadPaths).trans ?_
  split_ifs
  · rfl
  · rfl

theorem pathOf_removePath :
    (agents.removePath thread).pathOf thread' =
      if thread' = thread then none else agents.pathOf thread' := by
  refine (get_erase thread' thread agents.threadPaths).trans ?_
  split_ifs
  · rfl
  · rfl

@[simp] theorem pathOf_insertMetadata :
    (agents.insertMetadata key metadata h).pathOf thread = agents.pathOf thread := rfl

@[simp] theorem pathOf_removeMetadata :
    (agents.removeMetadata key).pathOf thread = agents.pathOf thread := rfl

/-- One for a live agent. -/
def weight (metadata : AgentMetadata) : ℕ := if metadata.isLive then 1 else 0

theorem length_liveAgents : agents.liveAgents.length = total weight agents.agentTree := by
  rw [liveAgents, total]
  induction agents.agentTree with
  | nil => rfl
  | cons entry entries ih =>
    rw [List.map_cons, List.filter_cons, List.map_cons, List.sum_cons, ← ih, weight]
    split_ifs
    · rw [List.length_cons]
      omega
    · omega

/-- The weight of what stands at a key. -/
def weightAt (key : Text) : ℕ := ((agents.metadataAt key).map weight).getD 0

theorem live_insertMetadata :
    (agents.insertMetadata key metadata h).liveAgents.length + agents.weightAt key =
      weight metadata + agents.liveAgents.length := by
  rw [length_liveAgents, length_liveAgents, weightAt, metadataAt]
  have hafter := total_insert_erase weight key agents.agentTree_sorted metadata
  have hbefore := total_eq_erase weight key agents.agentTree_sorted
  change total weight (insert key metadata agents.agentTree) + _ = _
  omega

theorem live_removeMetadata :
    (agents.removeMetadata key).liveAgents.length + agents.weightAt key =
      agents.liveAgents.length := by
  rw [length_liveAgents, length_liveAgents, weightAt, metadataAt]
  have hbefore := total_eq_erase weight key agents.agentTree_sorted
  change total weight (erase key agents.agentTree) + _ = _
  omega

/-- Only a registered agent away from the root's key has a weight. -/
theorem weightAt_eq_zero_iff :
    agents.weightAt key = 0 ↔
      (agents.metadataAt key).bind AgentMetadata.agentId = none ∨ key = rootText := by
  rw [weightAt]
  cases hmetadata : agents.metadataAt key with
  | none => simp
  | some metadata =>
    have hroot := AgentMetadata.isRoot_iff (agents.hasKey key metadata hmetadata)
    rw [map_some, getD_some, weight, AgentMetadata.isLive, ← hroot, bind_some]
    cases metadata.agentId <;> cases metadata.isRoot <;> simp

end ActiveAgents

/-! ### Partial maps that are inverse to each other -/

section
variable {A B : Type} [DecidableEq A] [DecidableEq B] {f : A → Option B} {g : B → Option A}
variable {a : A} {b : B}

/-- A new pair takes the place of the old one of `a`. -/
theorem inverse_insert (h : ∀ a b, f a = some b ↔ g b = some a) (hfree : g b = none) (a' : A)
    (b' : B) : (if a' = a then some b else f a') = some b' ↔
      (if b' = b then some a else if f a = some b' then none else g b') = some a' := by
  by_cases ha : a' = a
  · rw [if_pos ha, ha]
    split_ifs with hb hold
    · exact iff_of_true (hb ▸ rfl) rfl
    · exact iff_of_false (fun h' => hb (some.inj h').symm) (by simp)
    · rw [← h a b']
      exact iff_of_false (fun h' => hb (some.inj h').symm) hold
  · rw [if_neg ha, h]
    split_ifs with hb hold
    · rw [hb, hfree]
      exact iff_of_false (by simp) fun h' => ha (some.inj h').symm
    · rw [(h a b').1 hold]
      exact iff_of_false (fun h' => ha (some.inj h').symm) (by simp)
    · rfl

theorem inverse_erase (h : ∀ a b, f a = some b ↔ g b = some a) (hpair : f a = some b) (a' : A)
    (b' : B) :
    (if a' = a then none else f a') = some b' ↔ (if b' = b then none else g b') = some a' := by
  by_cases ha : a' = a
  · rw [if_pos ha, ha]
    refine iff_of_false (by simp) ?_
    split_ifs with hb
    · simp
    · rw [← h a b', hpair]
      exact fun h' => hb (some.inj h').symm
  · rw [if_neg ha, h]
    split_ifs with hb
    · rw [hb, (h a b).1 hpair]
      exact iff_of_false (fun h' => ha (some.inj h').symm) (by simp)
    · rfl

end

/-! ### Single steps -/

namespace ActiveAgents

variable {agents agents' : ActiveAgents}

theorem Inverse.congr (h : agents.Inverse) (hpath : ∀ thread, agents'.pathOf thread = agents.pathOf thread)
    (hmetadata : ∀ key, (agents'.metadataAt key).bind AgentMetadata.agentId =
      (agents.metadataAt key).bind AgentMetadata.agentId) : agents'.Inverse := by
  intro thread key
  rw [hpath thread, hmetadata key]
  exact h thread key

/-- A step leaves the accounts of the agents alone. -/
structure SameAccounts (agents agents' : ActiveAgents) : Prop where
  live : agents'.liveAgents.length = agents.liveAgents.length
  inverse : agents.Inverse → agents'.Inverse

theorem sameAccounts_of_eq (htree : agents'.agentTree = agents.agentTree)
    (hpaths : agents'.threadPaths = agents.threadPaths) : SameAccounts agents agents' := by
  refine ⟨?_, fun h => h.congr (fun thread => ?_) (fun key => ?_)⟩
  · rw [liveAgents, liveAgents, htree]
  · rw [pathOf, pathOf, hpaths]
  · rw [metadataAt, metadataAt, htree]

/-- A nickname is reserved beside the two maps. -/
theorem maps_reserveAgentNickname {names : List Text} {preferred : Option Text} {choice : ℕ}
    {nickname : Text}
    (h : agents.reserveAgentNickname names preferred choice = some (nickname, agents')) :
    agents'.agentTree = agents.agentTree ∧ agents'.threadPaths = agents.threadPaths := by
  unfold reserveAgentNickname at h
  split at h
  · cases h
    exact ⟨rfl, rfl⟩
  · dsimp only at h
    split at h
    · cases h
      exact ⟨rfl, rfl⟩
    · obtain ⟨name, -, hname⟩ := map_eq_some_iff.1 h
      cases hname
      exact ⟨rfl, rfl⟩

/-- A path is reserved without an agent. -/
theorem sameAccounts_reserveAgentPath {path : AgentPath}
    (h : agents.reserveAgentPath path = some agents') : SameAccounts agents agents' := by
  rw [reserveAgentPath] at h
  split at h
  · cases h
  · rename_i hvacant
    rw [← some.inj h]
    refine ⟨?_, fun hinverse => hinverse.congr (fun thread => rfl) (fun key => ?_)⟩
    · have hlive := live_insertMetadata agents path.text { agentPath := some path }
        (AgentMetadata.hasKey_of_path rfl)
      have hweight : agents.weightAt path.text = 0 := by rw [weightAt, hvacant]; rfl
      have hzero : weight { agentPath := some path } = 0 := rfl
      omega
    · rw [metadataAt_insertMetadata]
      split_ifs with hkey
      · rw [hkey, hvacant]
        rfl
      · rfl

/-- Releasing a reserved path removes no agent. -/
theorem sameAccounts_releaseReservedAgentPath (path : AgentPath) :
    SameAccounts agents (agents.releaseReservedAgentPath path) := by
  rw [releaseReservedAgentPath]
  split_ifs with hreserved
  · -- what is removed has no thread
    have hunregistered : (agents.metadataAt path.text).bind AgentMetadata.agentId = none := by
      cases hmetadata : agents.metadataAt path.text with
      | none => rfl
      | some metadata =>
        rw [hmetadata, any_some, isNone_iff_eq_none] at hreserved
        exact hreserved
    refine ⟨?_, fun hinverse => hinverse.congr (fun thread => rfl) (fun key => ?_)⟩
    · have hlive := live_removeMetadata agents path.text
      have hweight := (weightAt_eq_zero_iff agents path.text).2 (.inl hunregistered)
      omega
    · rw [metadataAt_removeMetadata]
      split_ifs with hkey
      · rw [hkey, hunregistered]
        rfl
      · rfl
  · exact sameAccounts_of_eq rfl rfl

/-- Releasing a thread takes its agent away, which is counted unless it is the root. -/
theorem releaseSpawnedThread_spec (hinverse : agents.Inverse) (thread : ThreadId) :
    (agents.releaseSpawnedThread thread).2.liveAgents.length +
        (if (agents.releaseSpawnedThread thread).1 then 1 else 0) = agents.liveAgents.length ∧
      (agents.releaseSpawnedThread thread).2.Inverse := by
  rw [releaseSpawnedThread]
  cases hpath : agents.pathOf thread with
  | none => exact ⟨rfl, hinverse⟩
  | some path =>
    obtain ⟨metadata, hmetadata, hid⟩ := bind_eq_some_iff.1 ((hinverse thread path).1 hpath)
    dsimp only
    constructor
    · have hlive := live_removeMetadata (agents.removePath thread) path
      have hweight : (agents.removePath thread).weightAt path =
          if (agents.metadataAt path).any fun metadata => !metadata.isRoot then 1 else 0 := by
        rw [weightAt, metadataAt_removePath, hmetadata, map_some, getD_some, weight,
          AgentMetadata.isLive, hid, any_some]
        rfl
      rw [liveAgents_removePath] at hlive
      omega
    · intro thread' key
      rw [pathOf_removeMetadata, pathOf_removePath, metadataAt_removeMetadata, metadataAt_removePath,
        apply_ite (Option.bind · AgentMetadata.agentId)]
      exact inverse_erase hinverse hpath thread' key

/-- The root is no live agent; the maps stay inverse unless its thread has a path already. -/
theorem registerRootThread_spec (hinverse : agents.Inverse) (thread : ThreadId) :
    (agents.registerRootThread thread).liveAgents.length = agents.liveAgents.length ∧
      ((agents.registerRootThread thread).Inverse ↔
        (agents.metadataAt rootText = none → agents.pathOf thread = none)) := by
  rw [registerRootThread]
  cases hroot : agents.metadataAt rootText with
  | some metadata =>
    dsimp only
    cases hid : metadata.agentId with
    | none => exact ⟨rfl, iff_of_true hinverse (nofun)⟩
    | some rootThread =>
      refine ⟨rfl, iff_of_true (hinverse.congr (fun thread' => ?_) (fun key => rfl))
        (nofun)⟩
      -- the root's thread has the root's path already
      have hpath : agents.pathOf rootThread = some rootText := by
        rw [hinverse rootThread rootText, hroot, bind_some, hid]
      rw [pathOf_insertPath]
      split_ifs with hthread
      · rw [hthread, hpath]
      · rfl
  | none =>
    constructor
    · have hlive := live_insertMetadata agents AgentPath.root.text
        { agentId := some thread, agentPath := some AgentPath.root }
        (AgentMetadata.hasKey_of_path rfl)
      have hweight : agents.weightAt AgentPath.root.text = 0 :=
        (weightAt_eq_zero_iff agents _).2 (.inr rfl)
      have hzero : weight { agentId := some thread, agentPath := some AgentPath.root } = 0 := rfl
      rw [liveAgents_insertPath]
      omega
    · constructor
      · intro hafter _
        by_contra hsome
        obtain ⟨path, hpath⟩ := ne_none_iff_exists'.1 hsome
        have hne : path ≠ AgentPath.root.text := by
          rintro rfl
          rw [hinverse thread AgentPath.root.text, show AgentPath.root.text = rootText from rfl,
            hroot] at hpath
          cases hpath
        -- the old metadata still names the thread, which now has the root's path
        have hold := hafter thread path
        rw [pathOf_insertPath, if_pos rfl, metadataAt_insertPath, metadataAt_insertMetadata,
          if_neg hne, ← hinverse thread path, hpath] at hold
        exact hne (some.inj (hold.2 rfl)).symm
      · intro hfree thread' key
        have hunregistered : (agents.metadataAt AgentPath.root.text).bind AgentMetadata.agentId = none :=
          congrArg (Option.bind · AgentMetadata.agentId) hroot
        have hinsert := inverse_insert (a := thread) hinverse hunregistered thread' key
        simp only [hfree rfl, reduceCtorEq, if_false] at hinsert
        rwa [pathOf_insertPath, pathOf_insertMetadata, metadataAt_insertPath,
          metadataAt_insertMetadata, apply_ite (Option.bind · AgentMetadata.agentId)]

variable (thread : ThreadId)

/-- A thread that is registered again leaves its old path. -/
theorem metadataAt_takePath (key key' : Text) :
    (agents.takePath thread key).metadataAt key' =
      if agents.pathOf thread = some key' ∧ key' ≠ key then none else agents.metadataAt key' := by
  unfold takePath
  cases hpath : agents.pathOf thread with
  | none => rw [if_neg (fun h => nomatch h.1), metadataAt_insertPath]
  | some previousPath =>
    dsimp only
    by_cases hkey : previousPath = key
    · rw [if_neg (not_not.2 hkey), metadataAt_insertPath, if_neg]
      rintro ⟨hsame, hne⟩
      exact hne (some.inj hsame ▸ hkey)
    · rw [if_pos hkey, metadataAt_removeMetadata, metadataAt_insertPath]
      by_cases hkey' : key' = previousPath
      · rw [if_pos hkey', if_pos ⟨by rw [hkey'], by rwa [hkey']⟩]
      · rw [if_neg hkey', if_neg fun h => hkey' (some.inj h.1).symm]

theorem pathOf_takePath (key : Text) (thread' : ThreadId) :
    (agents.takePath thread key).pathOf thread' =
      if thread' = thread then some key else agents.pathOf thread' := by
  unfold takePath
  cases agents.pathOf thread with
  | none => exact pathOf_insertPath agents thread thread' key
  | some previousPath =>
    dsimp only
    by_cases hkey : previousPath ≠ key
    · rw [if_pos hkey, pathOf_removeMetadata, pathOf_insertPath]
    · rw [if_neg hkey, pathOf_insertPath]

/-- The weight of what stands at the previous path of a thread, if that is another path. -/
def previousWeight (agents : ActiveAgents) (thread : ThreadId) (key : Text) : ℕ :=
  match agents.pathOf thread with
  | some previousPath => if previousPath ≠ key then agents.weightAt previousPath else 0
  | none => 0

theorem live_takePath (agents : ActiveAgents) (thread : ThreadId) (key : Text) :
    (agents.takePath thread key).liveAgents.length + agents.previousWeight thread key =
      agents.liveAgents.length := by
  unfold takePath previousWeight
  cases agents.pathOf thread with
  | none => rfl
  | some previousPath =>
    dsimp only
    by_cases hkey : previousPath ≠ key
    · rw [if_pos hkey, if_pos hkey]
      exact live_removeMetadata (agents.insertPath thread key) previousPath
    · rw [if_neg hkey, if_neg hkey]
      rfl

theorem metadataAt_takeKey (key key' : Text) (metadata : AgentMetadata) (h : metadata.HasKey key) :
    (agents.takeKey thread key metadata h).metadataAt key' =
      if key' = key then some metadata else agents.metadataAt key' := by
  unfold takeKey
  cases (agents.metadataAt key).bind AgentMetadata.agentId with
  | none => exact metadataAt_insertMetadata agents key key' metadata h
  | some previousThread =>
    dsimp only
    by_cases hthread : previousThread ≠ thread
    · rw [if_pos hthread, metadataAt_removePath, metadataAt_insertMetadata]
    · rw [if_neg hthread, metadataAt_insertMetadata]

/-- The thread that stood at a taken key loses its path. -/
theorem pathOf_takeKey (key : Text) (metadata : AgentMetadata)
    (h : metadata.HasKey key) (thread' : ThreadId) :
    (agents.takeKey thread key metadata h).pathOf thread' =
      if (agents.metadataAt key).bind AgentMetadata.agentId = some thread' ∧ thread' ≠ thread then none
      else agents.pathOf thread' := by
  unfold takeKey
  cases (agents.metadataAt key).bind AgentMetadata.agentId with
  | none => rw [if_neg (fun h => nomatch h.1), pathOf_insertMetadata]
  | some previousThread =>
    dsimp only
    by_cases hthread : previousThread = thread
    · rw [if_neg (not_not.2 hthread), pathOf_insertMetadata, if_neg]
      rintro ⟨hsame, hne⟩
      exact hne (some.inj hsame ▸ hthread)
    · rw [if_pos hthread, pathOf_removePath, pathOf_insertMetadata]
      by_cases hthread' : thread' = previousThread
      · rw [if_pos hthread', if_pos ⟨by rw [hthread'], by rwa [hthread']⟩]
      · rw [if_neg hthread', if_neg fun h => hthread' (some.inj h.1).symm]

/-- The agent behind a taken key is no longer counted. -/
theorem live_takeKey (agents : ActiveAgents) (thread : ThreadId) (key : Text) (metadata : AgentMetadata)
    (h : metadata.HasKey key) :
    (agents.takeKey thread key metadata h).liveAgents.length + agents.weightAt key =
      weight metadata + agents.liveAgents.length := by
  have hlive := live_insertMetadata agents key metadata h
  unfold takeKey
  cases (agents.metadataAt key).bind AgentMetadata.agentId with
  | none => exact hlive
  | some previousThread =>
    dsimp only
    by_cases hthread : previousThread ≠ thread
    · rw [if_pos hthread, liveAgents_removePath]
      exact hlive
    · rw [if_neg hthread]
      exact hlive

variable {metadata : AgentMetadata}

theorem registerSpawnedThread_none (hid : metadata.agentId = none) :
    agents.registerSpawnedThread metadata = agents := by
  unfold registerSpawnedThread
  split
  · rfl
  · rename_i thread hsome
    rw [hid] at hsome
    cases hsome

variable {thread : ThreadId}

theorem registerSpawnedThread_some (hid : metadata.agentId = some thread) :
    agents.registerSpawnedThread metadata =
      ((agents.useNickname metadata.agentNickname).takePath thread (metadata.key thread)).takeKey
        thread (metadata.key thread) metadata (AgentMetadata.hasKey_key hid) := by
  unfold registerSpawnedThread
  split
  · rename_i hnone
    rw [hid] at hnone
    cases hnone
  · rename_i thread' hsome
    cases hsome.symm.trans hid
    rfl

/-- The agent takes nobody's place: its thread is not registered, unless as the root, and no agent
is registered at its key, which is not the root's. -/
def IsNew (agents : ActiveAgents) (metadata : AgentMetadata) (thread : ThreadId) : Prop :=
  metadata.isRoot = false ∧ (agents.pathOf thread = none ∨ agents.pathOf thread = some rootText) ∧
    (agents.metadataAt (metadata.key thread)).bind AgentMetadata.agentId = none

theorem weight_of_agentId (hid : metadata.agentId = some thread) :
    weight metadata = if metadata.isRoot then 0 else 1 := by
  rw [weight, AgentMetadata.isLive, hid, isSome_some, Bool.true_and]
  cases metadata.isRoot <;> rfl

/-- The previous agent of a thread counts unless it is the root, or at the new key. -/
theorem previousWeight_eq_zero_iff (hinverse : agents.Inverse) (thread : ThreadId) (key : Text) :
    agents.previousWeight thread key = 0 ↔
      agents.pathOf thread = none ∨ agents.pathOf thread = some rootText ∨
        agents.pathOf thread = some key := by
  rw [previousWeight]
  cases hpath : agents.pathOf thread with
  | none => simp
  | some previousPath =>
    have hregistered := (hinverse thread previousPath).1 hpath
    have hweight := weightAt_eq_zero_iff agents previousPath
    rw [hregistered] at hweight
    dsimp only
    by_cases hkey : previousPath = key
    · rw [if_neg (not_not.2 hkey)]
      exact iff_of_true rfl (.inr (.inr (by rw [hkey])))
    · rw [if_pos hkey, hweight]
      simp [hkey]

/-- What a registration does to the number of live agents. -/
theorem live_registerSpawnedThread (hid : metadata.agentId = some thread) :
    (agents.registerSpawnedThread metadata).liveAgents.length +
        agents.weightAt (metadata.key thread) + agents.previousWeight thread (metadata.key thread) =
      weight metadata + agents.liveAgents.length := by
  rw [registerSpawnedThread_some hid]
  have hput := live_takeKey ((agents.useNickname metadata.agentNickname).takePath thread
    (metadata.key thread)) thread (metadata.key thread) metadata (AgentMetadata.hasKey_key hid)
  have hmoved : _ + agents.previousWeight thread (metadata.key thread) = agents.liveAgents.length :=
    live_takePath (agents.useNickname metadata.agentNickname) thread (metadata.key thread)
  rw [weightAt, metadataAt_takePath, if_neg fun h => h.2 rfl] at hput
  change _ + agents.weightAt (metadata.key thread) = _ at hput
  omega

/-- **A commit brings one more live agent exactly if the agent is new.** -/
theorem live_registerSpawnedThread_iff (hinverse : agents.Inverse)
    (hid : metadata.agentId = some thread) :
    (agents.registerSpawnedThread metadata).liveAgents.length = agents.liveAgents.length + 1 ↔
      agents.IsNew metadata thread := by
  have hkey := AgentMetadata.isRoot_iff (AgentMetadata.hasKey_key hid)
  have hlive : (agents.registerSpawnedThread metadata).liveAgents.length + _ + _ = _ :=
    live_registerSpawnedThread hid
  rw [weight_of_agentId hid] at hlive
  rw [IsNew]
  cases hroot : metadata.isRoot with
  | true =>
    rw [hroot, if_pos rfl] at hlive
    refine iff_of_false (fun hmore => ?_) (fun h => Bool.noConfusion h.1)
    omega
  | false =>
    rw [hroot, if_neg Bool.false_ne_true] at hlive
    have hne : metadata.key thread ≠ rootText := fun h => by
      rw [hkey.2 h] at hroot
      cases hroot
    have hsplit : (agents.registerSpawnedThread metadata).liveAgents.length =
        agents.liveAgents.length + 1 ↔ agents.weightAt (metadata.key thread) = 0 ∧
          agents.previousWeight thread (metadata.key thread) = 0 := by omega
    rw [hsplit, weightAt_eq_zero_iff, previousWeight_eq_zero_iff hinverse]
    constructor
    · rintro ⟨hfree | hroot', hpath⟩
      · refine ⟨rfl, ?_, hfree⟩
        rcases hpath with hnone | hroot' | hsame
        · exact .inl hnone
        · exact .inr hroot'
        · -- the thread would stand at the key
          rw [(hinverse thread _).1 hsame] at hfree
          cases hfree
      · exact absurd hroot' hne
    · rintro ⟨-, hpath, hfree⟩
      exact ⟨.inl hfree, hpath.imp_right .inl⟩

/-- A new agent keeps the two maps inverse. -/
theorem inverse_registerSpawnedThread (hinverse : agents.Inverse)
    (hid : metadata.agentId = some thread) (hnew : agents.IsNew metadata thread) :
    (agents.registerSpawnedThread metadata).Inverse := by
  obtain ⟨-, -, hfree⟩ := hnew
  rw [registerSpawnedThread_some hid]
  intro thread' key'
  have hinsert := inverse_insert (a := thread) hinverse hfree thread' key'
  have hat : ((agents.useNickname metadata.agentNickname).takePath thread
      (metadata.key thread)).metadataAt (metadata.key thread) =
      agents.metadataAt (metadata.key thread) := by
    rw [metadataAt_takePath, if_neg fun h => h.2 rfl]
    rfl
  rw [pathOf_takeKey, hat, hfree, if_neg (fun h => nomatch h.1), pathOf_takePath, metadataAt_takeKey]
  change (if thread' = thread then some (metadata.key thread) else agents.pathOf thread') = _ ↔ _
  rw [hinsert]
  by_cases hkey : key' = metadata.key thread
  · rw [if_pos hkey, if_pos hkey, bind_some, hid]
  · rw [if_neg hkey, if_neg hkey, metadataAt_takePath, apply_ite (Option.bind · AgentMetadata.agentId)]
    simp only [hkey, ne_eq, not_false_eq_true, and_true]
    rfl

end ActiveAgents

/-! ### Steps and runs -/

variable {registry : AgentRegistry}

theorem Accounted.of_sameAccounts {registry' : AgentRegistry} (h : Accounted registry)
    (hagents : registry.activeAgents.SameAccounts registry'.activeAgents)
    (hcount : registry'.totalCount + registry.reservations.length + registry.releasing =
      registry.totalCount + registry'.reservations.length + registry'.releasing) :
    Accounted registry' := by
  refine ⟨?_, hagents.inverse h.inverse⟩
  have hbefore := h.count
  have hlive := hagents.live
  omega

variable {handle : ℕ} {reservation : SpawnReservation}

theorem length_erase_reservation (h : get handle registry.reservations = some reservation) :
    (registry.removeReservation handle).reservations.length + 1 = registry.reservations.length := by
  have hbefore := total_erase (fun _ => 1) registry.reservations_sorted h
  rw [total_one, total_one] at hbefore
  change (erase handle registry.reservations).length + 1 = _
  omega

open AgentRegistry

theorem length_setReservation (registry : AgentRegistry) (handle : ℕ)
    (reservation : SpawnReservation) :
    (registry.setReservation handle reservation).reservations.length =
      registry.reservations.length := by
  rw [setReservation]
  split_ifs with h
  · obtain ⟨old, hold⟩ := isSome_iff_exists.1 h
    have hafter :=
      total_insert_erase (fun _ => 1) handle registry.reservations_sorted reservation
    have hbefore := total_erase (fun _ => 1) registry.reservations_sorted hold
    simp only [total_one] at hafter hbefore
    change (insert handle reservation registry.reservations).length = _
    omega
  · rfl

theorem setReservation_fields (registry : AgentRegistry) (handle : ℕ)
    (reservation : SpawnReservation) :
    (registry.setReservation handle reservation).activeAgents = registry.activeAgents ∧
      (registry.setReservation handle reservation).totalCount = registry.totalCount ∧
      (registry.setReservation handle reservation).releasing = registry.releasing := by
  rw [setReservation]
  split_ifs
  · exact ⟨rfl, rfl, rfl⟩
  · exact ⟨rfl, rfl, rfl⟩

theorem get_of_reservation (h : registry.reservation handle = some reservation) :
    get handle registry.reservations = some reservation :=
  (filter_eq_some_iff.1 h).1

theorem Accounted.setReservation (h : Accounted registry) {agents : ActiveAgents}
    (hagents : registry.activeAgents.SameAccounts agents) (handle : ℕ)
    (reservation : SpawnReservation) :
    Accounted (({ registry with activeAgents := agents } : AgentRegistry).setReservation handle
      reservation) := by
  obtain ⟨hactive, hcount, hreleasing⟩ :=
    setReservation_fields { registry with activeAgents := agents } handle reservation
  have hlength := length_setReservation { registry with activeAgents := agents } handle reservation
  refine h.of_sameAccounts ?_ ?_
  · rw [hactive]
    exact hagents
  · rw [hcount, hreleasing, hlength]

/-- A commit keeps the accounts exactly if it brings a new agent: its reservation goes, and the
counter stays. -/
theorem accounted_commit_iff (h : Accounted registry)
    (hreservation : registry.reservation handle = some reservation) (metadata : AgentMetadata) :
    Accounted (({ registry with
      activeAgents := registry.activeAgents.registerSpawnedThread metadata } :
        AgentRegistry).removeReservation handle) ↔
      ∃ thread, metadata.agentId = some thread ∧ registry.activeAgents.IsNew metadata thread := by
  have hbefore := h.count
  have hlength := length_erase_reservation (get_of_reservation hreservation)
  constructor
  · intro hafter
    have hcounted := hafter.count
    change registry.totalCount =
      (registry.activeAgents.registerSpawnedThread metadata).liveAgents.length +
        (registry.removeReservation handle).reservations.length + registry.releasing at hcounted
    have hlive : (registry.activeAgents.registerSpawnedThread metadata).liveAgents.length =
        registry.activeAgents.liveAgents.length + 1 := by omega
    cases hid : metadata.agentId with
    | none =>
      rw [ActiveAgents.registerSpawnedThread_none hid] at hlive
      omega
    | some thread =>
      exact ⟨thread, rfl, (ActiveAgents.live_registerSpawnedThread_iff h.inverse hid).1 hlive⟩
  · rintro ⟨thread, hid, hnew⟩
    refine ⟨?_, ActiveAgents.inverse_registerSpawnedThread h.inverse hid hnew⟩
    have hlive := (ActiveAgents.live_registerSpawnedThread_iff h.inverse hid).2 hnew
    change registry.totalCount =
      (registry.activeAgents.registerSpawnedThread metadata).liveAgents.length +
        (registry.removeReservation handle).reservations.length + registry.releasing
    omega

theorem Accounted.getD (h : Accounted registry) {result : Option AgentRegistry}
    (hresult : ∀ registry', result = some registry' → Accounted registry') :
    Accounted (result.getD registry) := by
  cases result with
  | none => exact h
  | some registry' => exact hresult registry' rfl

/-- **One step.**  A step keeps the accounts exactly if it is sound. -/
theorem accounted_step_iff (h : Accounted registry) (step : Step) :
    Accounted (registry.step step) ↔ Sound registry step := by
  have hbefore := h.count
  cases step with
  | reserveSpawnSlot maxThreads =>
    refine iff_of_true ?_ trivial
    rw [step, reserveSpawnSlot]
    split_ifs
    · exact h
    · refine h.of_sameAccounts (ActiveAgents.sameAccounts_of_eq rfl rfl) ?_
      -- the handle is new
      have hfresh : get registry.nextReservation registry.reservations = none := by
        by_contra hsome
        obtain ⟨old, hold⟩ := ne_none_iff_exists'.1 hsome
        exact absurd (registry.reservations_lt _ (mem_of_get hold)) (lt_irrefl _)
      have hlength := total_insert (fun _ => 1) hfresh ({} : SpawnReservation)
      rw [total_one, total_one] at hlength
      simp only [getD_some]
      omega
  | reserveAgentNickname handle names preferred choice =>
    refine iff_of_true (h.getD fun registry' hresult => ?_) trivial
    obtain ⟨reservation, -, hrest⟩ := bind_eq_some_iff.1 hresult
    obtain ⟨⟨nickname, agents⟩, hagents, hregistry⟩ := bind_eq_some_iff.1 hrest
    rw [← some.inj hregistry]
    obtain ⟨htree, hpaths⟩ := ActiveAgents.maps_reserveAgentNickname hagents
    exact h.setReservation (ActiveAgents.sameAccounts_of_eq htree hpaths) handle _
  | reserveAgentPath handle path =>
    refine iff_of_true (h.getD fun registry' hresult => ?_) trivial
    obtain ⟨reservation, -, hrest⟩ := bind_eq_some_iff.1 hresult
    obtain ⟨agents, hagents, hregistry⟩ := bind_eq_some_iff.1 hrest
    rw [← some.inj hregistry]
    exact h.setReservation (ActiveAgents.sameAccounts_reserveAgentPath hagents) handle _
  | commit handle metadata =>
    rw [step, commit, Sound]
    cases hreservation : registry.reservation handle with
    | none => exact iff_of_true h (nofun)
    | some reservation =>
      exact (accounted_commit_iff h hreservation metadata).trans
        ⟨fun hnew _ => hnew, fun hnew => hnew rfl⟩
  | dropPath handle =>
    refine iff_of_true (h.getD fun registry' hresult => ?_) trivial
    obtain ⟨reservation, -, hregistry⟩ := bind_eq_some_iff.1 hresult
    rw [← some.inj hregistry]
    refine h.setReservation ?_ handle _
    cases reservation.reservedAgentPath with
    | none => exact ActiveAgents.sameAccounts_of_eq rfl rfl
    | some path => exact ActiveAgents.sameAccounts_releaseReservedAgentPath path
  | dropCount handle =>
    refine iff_of_true (h.getD fun registry' hresult => ?_) trivial
    obtain ⟨reservation, hreservation, hrest⟩ := bind_eq_some_iff.1 hresult
    split_ifs at hrest
    have hlength := length_erase_reservation hreservation
    rw [← some.inj hrest]
    refine h.of_sameAccounts (ActiveAgents.sameAccounts_of_eq rfl rfl) ?_
    change registry.totalCount - 1 + _ + _ = registry.totalCount +
      (registry.removeReservation handle).reservations.length + registry.releasing
    omega
  | releaseSpawnedThread thread =>
    refine iff_of_true ?_ trivial
    obtain ⟨hlive, hinverse⟩ := ActiveAgents.releaseSpawnedThread_spec h.inverse thread
    refine ⟨?_, hinverse⟩
    rw [step, releaseSpawnedThread]
    dsimp only
    split_ifs at hlive ⊢
    · omega
    · omega
  | releaseCount =>
    refine iff_of_true ?_ trivial
    rw [step, releaseCount]
    split_ifs with hzero
    · exact h
    · refine h.of_sameAccounts (ActiveAgents.sameAccounts_of_eq rfl rfl) ?_
      dsimp only [getD_some]
      omega
  | registerRootThread thread =>
    obtain ⟨hlive, hinverse⟩ := ActiveAgents.registerRootThread_spec h.inverse thread
    rw [Sound, ← hinverse]
    refine ⟨fun hafter => hafter.inverse, fun hafter => ⟨?_, hafter⟩⟩
    rw [step, registerRootThread]
    dsimp only
    omega

theorem accounted_empty : Accounted {} :=
  ⟨rfl, fun _ _ => iff_of_false (nofun) (nofun)⟩

/-- **When the accounts are kept.**  The accounts of a registry are right throughout a run exactly
if every step of the run is sound in the state it is made in: each commit brings an agent that
takes no other's place, and the root is registered with a thread of its own. -/
theorem accounted_throughout_iff (steps : List Step) :
    (∀ done, done <+: steps → Accounted (AgentRegistry.run done)) ↔
      ∀ done step, done ++ [step] <+: steps → Sound (AgentRegistry.run done) step := by
  have hstep : ∀ registry step, Accounted registry →
      (Accounted (AgentRegistry.step registry step) ↔ Sound registry step) :=
    fun _ step h => accounted_step_iff h step
  exact Runs.throughout_iff hstep accounted_empty steps

/-- An agent that is registered under one path and then under another: two slots are reserved and
committed, one agent is live, and the counter stays at two. -/
theorem committed_twice_is_counted_twice :
    let registry := AgentRegistry.run
      [.reserveSpawnSlot none,
        .commit 0 { agentId := some "t".toList, agentPath := some ⟨"/root/a".toList, by decide⟩ },
        .reserveSpawnSlot none,
        .commit 1 { agentId := some "t".toList, agentPath := some ⟨"/root/b".toList, by decide⟩ }]
    registry.totalCount = 2 ∧ registry.activeAgents.liveAgents.length = 1 ∧
      registry.reservations.length = 0 ∧ registry.releasing = 0 ∧ ¬ Accounted registry := by
  refine ⟨by decide, by decide, by decide, by decide, ?_⟩
  intro h
  have hcount := h.count
  revert hcount
  decide

end Agents
