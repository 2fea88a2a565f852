/-
# Runs of a step function

A system is a step function `σ → ε → Option σ`: an event is taken in a state, or it
is not possible there.  This file has the runs over lists of events and the rules
that carry a fact about one step over a whole run.
-/
import Mathlib

namespace Runs

open Option

variable {σ ε : Type}

section
variable (step : σ → ε → Option σ)

/-- The state after the events, if each of them is possible in its turn. -/
def run : σ → List ε → Option σ
  | s, [] => some s
  | s, e :: es => (step s e).bind (fun s' => run s' es)

/-- Every step of the run over the events meets the condition. -/
def Along (ok : σ → ε → Prop) : σ → List ε → Prop
  | _, [] => True
  | s, e :: es => ok s e ∧ ∀ s', step s e = some s' → Along ok s' es

end

variable {step : σ → ε → Option σ} {ok : σ → ε → Prop} {s last : σ} {e : ε} {es : List ε}

theorem run_cons_eq_some :
    run step s (e :: es) = some last ↔ ∃ s', step s e = some s' ∧ run step s' es = some last := by
  rw [run]
  exact bind_eq_some_iff

/-- Whether a condition holds along a run is decided by taking the steps. -/
instance Along.decidable [∀ s e, Decidable (ok s e)] :
    ∀ s es, Decidable (Along step ok s es)
  | _, [] => isTrue trivial
  | s, e :: es =>
    match h : step s e with
    | none => decidable_of_iff (ok s e) ⟨fun hok => ⟨hok, fun _ h' => nomatch h.symm.trans h'⟩, And.left⟩
    | some s' =>
      have := Along.decidable s' es
      decidable_of_iff (ok s e ∧ Along step ok s' es)
        ⟨fun hok => ⟨hok.1, fun _ h' => some.inj (h.symm.trans h') ▸ hok.2⟩,
          fun hok => ⟨hok.1, hok.2 s' h⟩⟩

variable {inv : σ → Prop}

/-- The rule of invariants: what every step preserves holds at the end. -/
theorem run_invariant (hstep : ∀ s e s', inv s → step s e = some s' → inv s') (hs : inv s)
    (hrun : run step s es = some last) : inv last := by
  induction es generalizing s with
  | nil => exact some.inj hrun ▸ hs
  | cons e es ih =>
    obtain ⟨s', he, hrun⟩ := run_cons_eq_some.1 hrun
    exact ih (hstep s e s' hs he) hrun

/-- The rule of invariants for a condition on the steps: what the allowed steps preserve holds at the end. -/
theorem Along.invariant (hstep : ∀ s e s', inv s → ok s e → step s e = some s' → inv s')
    (hs : inv s) (hok : Along step ok s es) (hrun : run step s es = some last) : inv last := by
  induction es generalizing s with
  | nil => exact some.inj hrun ▸ hs
  | cons e es ih =>
    obtain ⟨s', he, hrun⟩ := run_cons_eq_some.1 hrun
    exact ih (hstep s e s' hs hok.1 he) (hok.2 s' he) hrun

theorem Along.trivial : Along step (fun _ _ => True) s es := by
  induction es generalizing s with
  | nil => exact True.intro
  | cons e es ih => exact ⟨True.intro, fun _ _ => ih⟩

/-- A condition that follows from an invariant of the allowed steps holds along the
run. -/
theorem Along.of_invariant {good : σ → ε → Prop}
    (hstep : ∀ s e s', inv s → ok s e → step s e = some s' → inv s')
    (hgood : ∀ s e, inv s → ok s e → good s e) (hs : inv s) (hok : Along step ok s es) :
    Along step good s es := by
  induction es generalizing s with
  | nil => trivial
  | cons e es ih =>
    refine ⟨hgood s e hs hok.1, fun s' he => ?_⟩
    exact ih (hstep s e s' hs hok.1 he) (hok.2 s' he)

/-- The step from this state does not decrease the quantity. -/
def StepGrows (step : σ → ε → Option σ) (quantity : σ → ℕ) (s : σ) (e : ε) : Prop :=
  ∀ s', step s e = some s' → quantity s ≤ quantity s'

/-- A quantity that no step of the run decreases does not decrease over the run. -/
theorem Along.le_of_run {quantity : σ → ℕ} (h : Along step (StepGrows step quantity) s es)
    (hrun : run step s es = some last) : quantity s ≤ quantity last := by
  induction es generalizing s with
  | nil => exact Nat.le_of_eq (congrArg quantity (some.inj hrun))
  | cons e es ih =>
    obtain ⟨s', he, hrun⟩ := run_cons_eq_some.1 hrun
    exact Nat.le_trans (h.1 s' he) (ih (h.2 s' he) hrun)

/-- Where a condition on a step says exactly that the step keeps an invariant, it holds
along a run exactly if the invariant holds after every initial part of the run. -/
theorem along_iff_prefixes {good : σ → ε → Prop}
    (hstep : ∀ s e s', inv s → good s e → step s e = some s' → (inv s' ↔ ok s e)) (hs : inv s)
    (hgood : Along step good s es) (hrun : run step s es = some last) :
    (∀ front, front <+: es → ∀ s', run step s front = some s' → inv s') ↔ Along step ok s es := by
  induction es generalizing s with
  | nil =>
    refine ⟨fun _ => trivial, fun _ front hfront s' hs' => ?_⟩
    obtain rfl := List.prefix_nil.1 hfront
    exact some.inj hs' ▸ hs
  | cons e es ih =>
    obtain ⟨s₁, he, htail⟩ := run_cons_eq_some.1 hrun
    constructor
    · intro h
      have hs₁ : inv s₁ := h [e] ⟨es, rfl⟩ s₁ (run_cons_eq_some.2 ⟨s₁, he, rfl⟩)
      refine ⟨(hstep s e s₁ hs hgood.1 he).1 hs₁, fun s₁' he' => ?_⟩
      obtain rfl : s₁ = s₁' := some.inj (he.symm.trans he')
      refine (ih hs₁ (hgood.2 s₁ he) htail).1 fun front hfront s' hs' => ?_
      exact h (e :: front) (List.cons_prefix_cons.2 ⟨rfl, hfront⟩) s'
        (run_cons_eq_some.2 ⟨s₁, he, hs'⟩)
    · rintro ⟨hok, hrest⟩ front hfront s' hs'
      have hs₁ : inv s₁ := (hstep s e s₁ hs hgood.1 he).2 hok
      cases front with
      | nil => exact some.inj hs' ▸ hs
      | cons e' front =>
        obtain ⟨rfl, hfront'⟩ := List.cons_prefix_cons.1 hfront
        obtain ⟨s₁', he', hs'⟩ := run_cons_eq_some.1 hs'
        obtain rfl : s₁ = s₁' := some.inj (he.symm.trans he')
        exact (ih hs₁ (hgood.2 s₁ he) htail).2 (hrest s₁ he) front hfront' s' hs'

/-- For a total step function: where a condition on a step says exactly that the step keeps an
invariant, every step of a run meets it exactly if the invariant holds throughout the run. -/
theorem throughout_iff {step : σ → ε → σ} {ok : σ → ε → Prop}
    (hstep : ∀ s e, inv s → (inv (step s e) ↔ ok s e)) (hs : inv s) (es : List ε) :
    (∀ done, done <+: es → inv (done.foldl step s)) ↔
      ∀ done e, done ++ [e] <+: es → ok (done.foldl step s) e := by
  have hlast : ∀ done e, (done ++ [e]).foldl step s = step (done.foldl step s) e := by
    intro done e
    rw [List.foldl_append]
    rfl
  constructor
  · intro hinv done e he
    have hdone := hinv done ((List.prefix_append done [e]).trans he)
    rw [← hstep _ e hdone, ← hlast]
    exact hinv _ he
  · intro hok done
    induction done using List.reverseRecOn with
    | nil => exact fun _ => hs
    | append_singleton done e ih =>
      intro he
      have hdone := ih ((List.prefix_append done [e]).trans he)
      rw [hlast, hstep _ e hdone]
      exact hok done e he

end Runs
