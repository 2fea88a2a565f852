/-
# The limit of the agent registry

The accounts of a registry can go wrong, but only in one direction: in every run the counter
covers the registered threads, the reservations and the calls that are about to lower it.  So it
is never lowered below zero, and the limit holds whatever threads and paths the commits bring.
-/
import BetterCodex.AgentRegistry

namespace Agents

open RustStr SortedMap Option

/-- One for a path other than the root's. -/
def pathWeight (path : Text) : ℕ := if path = rootText then 0 else 1

namespace ActiveAgents

variable (agents : ActiveAgents) (thread : ThreadId)

/-- The number of threads that are registered away from the root. -/
def threads : ℕ := total pathWeight agents.threadPaths

theorem threads_insertPath (path : Text) :
    (agents.insertPath thread path).threads ≤ agents.threads + pathWeight path := by
  have hafter := total_insert_erase pathWeight thread agents.threadPaths_sorted path
  have hbefore := total_eq_erase pathWeight thread agents.threadPaths_sorted
  dsimp only [threads, insertPath]
  omega

theorem threads_removePath :
    (agents.removePath thread).threads + ((agents.pathOf thread).map pathWeight).getD 0 =
      agents.threads := by
  have hbefore := total_eq_erase pathWeight thread agents.threadPaths_sorted
  dsimp only [threads, removePath, pathOf]
  omega

theorem threads_takePath (key : Text) :
    (agents.takePath thread key).threads ≤ agents.threads + 1 := by
  have hinsert := agents.threads_insertPath thread key
  have hweight : pathWeight key ≤ 1 := by
    rw [pathWeight]
    split_ifs <;> omega
  suffices (agents.takePath thread key).threads = (agents.insertPath thread key).threads by omega
  rw [takePath]
  split
  · split_ifs <;> rfl
  · rfl

theorem threads_takeKey (key : Text) (metadata : AgentMetadata) (h : metadata.HasKey key) :
    (agents.takeKey thread key metadata h).threads ≤ agents.threads := by
  rw [takeKey]
  split
  · split_ifs
    · exact le_of_add_le_left (threads_removePath _ _).le
    · exact le_rfl
  · exact le_rfl

theorem threads_registerSpawnedThread (metadata : AgentMetadata) :
    (agents.registerSpawnedThread metadata).threads ≤ agents.threads + 1 := by
  cases hid : metadata.agentId with
  | none =>
    rw [registerSpawnedThread_none hid]
    omega
  | some thread =>
    rw [registerSpawnedThread_some hid]
    exact (threads_takeKey ..).trans (threads_takePath ..)

/-- A release that counts has removed a path other than the root's. -/
theorem threads_releaseSpawnedThread :
    (agents.releaseSpawnedThread thread).2.threads +
      (if (agents.releaseSpawnedThread thread).1 then 1 else 0) ≤ agents.threads := by
  have hremoved := agents.threads_removePath thread
  rw [releaseSpawnedThread]
  cases hpath : agents.pathOf thread with
  | none => exact le_rfl
  | some path =>
    rw [hpath, map_some, getD_some, pathWeight] at hremoved
    change (agents.removePath thread).threads +
      (if (agents.metadataAt path).any fun metadata => !metadata.isRoot then 1 else 0) ≤ _
    cases hmetadata : agents.metadataAt path with
    | none => exact le_of_add_le_left hremoved.le
    | some metadata =>
      have hroot := AgentMetadata.isRoot_iff (agents.hasKey path metadata hmetadata)
      rw [any_some]
      cases hcounted : metadata.isRoot with
      | true => exact le_of_add_le_left hremoved.le
      | false =>
        rw [if_neg (by simp [← hroot, hcounted])] at hremoved
        exact hremoved.le

theorem threads_registerRootThread :
    (agents.registerRootThread thread).threads ≤ agents.threads := by
  rw [registerRootThread]
  split
  · split
    · exact threads_insertPath ..
    · exact le_rfl
  · exact threads_insertPath ..

end ActiveAgents

open ActiveAgents AgentRegistry

/-- The counter is not too low, and within the limit if there is one. -/
structure Covered (limit : Option ℕ) (registry : AgentRegistry) : Prop where
  count : registry.activeAgents.threads + registry.reservations.length + registry.releasing ≤
    registry.totalCount
  le_limit : ∀ m ∈ limit, registry.totalCount ≤ m

section
variable {registry registry' : AgentRegistry} {limit : Option ℕ} (h : Covered limit registry)
include h

theorem Covered.of_le (hcount : registry'.activeAgents.threads + registry'.reservations.length +
      registry'.releasing ≤ registry'.totalCount)
    (hle : registry'.totalCount ≤ registry.totalCount) : Covered limit registry' :=
  ⟨hcount, fun m hm => hle.trans (h.le_limit m hm)⟩

theorem Covered.setReservation {agents : ActiveAgents} {handle : ℕ} {reservation : SpawnReservation}
    (hthreads : agents.threads = registry.activeAgents.threads) :
    Covered limit (({ registry with activeAgents := agents } : AgentRegistry).setReservation handle
      reservation) := by
  obtain ⟨hactive, hcount, hreleasing⟩ :=
    setReservation_fields { registry with activeAgents := agents } handle reservation
  refine h.of_le ?_ hcount.le
  rw [hactive, hcount, hreleasing, length_setReservation, hthreads]
  exact h.count

theorem Covered.getD {result : Option AgentRegistry}
    (hresult : ∀ registry', result = some registry' → Covered limit registry') :
    Covered limit (result.getD registry) := by
  cases result with
  | none => exact h
  | some registry' => exact hresult registry' rfl

/-- **One step** keeps the counter high enough, and within the limit of its reservation. -/
theorem covered_step (step : Step)
    (hlimit : ∀ max, step = .reserveSpawnSlot max → ∀ m ∈ limit, ∃ n ∈ max, n ≤ m) :
    Covered limit (registry.step step) := by
  have hbefore := h.count
  cases step with
  | reserveSpawnSlot maxThreads =>
    rw [step, reserveSpawnSlot]
    split_ifs with hfull
    · exact h
    have hafter := total_insert_erase (fun _ => 1) registry.nextReservation
      registry.reservations_sorted {}
    have hold := total_eq_erase (fun _ => 1) registry.nextReservation registry.reservations_sorted
    rw [total_one] at hafter hold
    rw [getD_some]
    refine ⟨by dsimp only; omega, fun m hm => ?_⟩
    obtain ⟨n, hn, hle⟩ := hlimit maxThreads rfl m hm
    have hfree : ¬ n ≤ registry.totalCount := by simpa [Option.mem_def.1 hn] using hfull
    dsimp only
    omega
  | reserveAgentNickname handle names preferred choice =>
    refine h.getD fun registry' hresult => ?_
    obtain ⟨reservation, -, hrest⟩ := bind_eq_some_iff.1 hresult
    obtain ⟨⟨nickname, agents⟩, hagents, hregistry⟩ := bind_eq_some_iff.1 hrest
    rw [← some.inj hregistry]
    exact h.setReservation (congrArg (total pathWeight) (maps_reserveAgentNickname hagents).2)
  | reserveAgentPath handle path =>
    refine h.getD fun registry' hresult => ?_
    obtain ⟨reservation, -, hrest⟩ := bind_eq_some_iff.1 hresult
    obtain ⟨agents, hagents, hregistry⟩ := bind_eq_some_iff.1 hrest
    rw [← some.inj hregistry]
    refine h.setReservation ?_
    rw [ActiveAgents.reserveAgentPath] at hagents
    split at hagents
    · cases hagents
    · rw [← some.inj hagents]
      rfl
  | commit handle metadata =>
    refine h.getD fun registry' hresult => ?_
    obtain ⟨reservation, hreservation, hregistry⟩ := bind_eq_some_iff.1 hresult
    have hlength := length_erase_reservation (get_of_reservation hreservation)
    have hthreads := registry.activeAgents.threads_registerSpawnedThread metadata
    rw [← some.inj hregistry]
    refine h.of_le ?_ le_rfl
    dsimp only [removeReservation] at hlength ⊢
    omega
  | dropPath handle =>
    refine h.getD fun registry' hresult => ?_
    obtain ⟨reservation, -, hregistry⟩ := bind_eq_some_iff.1 hresult
    rw [← some.inj hregistry]
    refine h.setReservation ?_
    cases reservation.reservedAgentPath with
    | none => rfl
    | some path =>
      rw [elim_some, releaseReservedAgentPath]
      split_ifs <;> rfl
  | dropCount handle =>
    refine h.getD fun registry' hresult => ?_
    obtain ⟨reservation, hreservation, hrest⟩ := bind_eq_some_iff.1 hresult
    split_ifs at hrest
    have hlength := length_erase_reservation hreservation
    rw [← some.inj hrest]
    refine h.of_le ?_ (Nat.sub_le _ _)
    dsimp only [removeReservation] at hlength ⊢
    omega
  | releaseSpawnedThread thread =>
    have hthreads := registry.activeAgents.threads_releaseSpawnedThread thread
    refine h.of_le ?_ le_rfl
    dsimp only [step, AgentRegistry.releaseSpawnedThread]
    split_ifs at hthreads ⊢ <;> omega
  | releaseCount =>
    rw [step, releaseCount]
    split_ifs with hzero
    · exact h
    · refine h.of_le ?_ (Nat.sub_le _ _)
      dsimp only [getD_some]
      omega
  | registerRootThread thread =>
    have hthreads := registry.activeAgents.threads_registerRootThread thread
    exact h.of_le (by dsimp only [step, AgentRegistry.registerRootThread]; omega) le_rfl

theorem covered_foldl (steps : List Step)
    (hlimit : ∀ max, .reserveSpawnSlot max ∈ steps → ∀ m ∈ limit, ∃ n ∈ max, n ≤ m) :
    Covered limit (steps.foldl AgentRegistry.step registry) := by
  induction steps generalizing registry with
  | nil => exact h
  | cons step steps ih =>
    refine ih (covered_step h step fun max hmax => ?_) fun max hmax => ?_
    all_goals exact hlimit max (by simp [hmax])

end

/-- **The limit holds.**  In every interleaving, also one that breaks the accounts, the registered
threads, the reservations and the calls that are about to lower the counter do not exceed it, so
that it is lowered only when it is positive; and it stays within every number that all
reservations have as their limit. -/
theorem threads_le_totalCount_le_limit (steps : List Step) :
    let registry := AgentRegistry.run steps
    registry.activeAgents.threads + registry.reservations.length + registry.releasing ≤
        registry.totalCount ∧
      ∀ m, (∀ max, .reserveSpawnSlot max ∈ steps → ∃ n ∈ max, n ≤ m) → registry.totalCount ≤ m := by
  have hempty : ∀ limit, Covered limit (AgentRegistry.run []) :=
    fun _ => ⟨le_rfl, fun _ _ => Nat.zero_le _⟩
  refine ⟨(covered_foldl (hempty none) steps (by simp)).count, fun m hm => ?_⟩
  exact (covered_foldl (hempty (some m)) steps (by simpa using hm)).le_limit m rfl

/-- The limit is one, and one agent is there when another one is asked for. -/
theorem totalCount_le_limit_one :
    (AgentRegistry.run [.reserveSpawnSlot (some 1), .commit 0 { agentId := some ['t'] },
      .reserveSpawnSlot (some 1)]).totalCount ≤ 1 :=
  (threads_le_totalCount_le_limit _).2 1 (by simp)

end Agents
