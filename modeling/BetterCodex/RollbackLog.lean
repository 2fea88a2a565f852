/-
# Logs of entries and rollback markers

A log holds entries and markers that take back the newest entries.  Which entries are
left can be computed in two ways: forward, with a stack, and backward, by skipping as
many entries as the markers behind them ask for.
-/
import Mathlib

namespace RollbackLog

open List

variable {α β : Type}

/-- An entry, or a marker that takes back the newest `n` entries. -/
inductive Event (α : Type) where
  | push (a : α)
  | pop (n : ℕ)

/-- The entries that are left, newest last, starting with a stack of them. -/
def forward (stack : List α) : List (Event α) → List α
  | [] => stack
  | .push a :: events => forward (stack ++ [a]) events
  | .pop n :: events => forward (stack.rdrop n) events

/-- One entry in the backward reading: it is skipped while markers are pending. -/
def keepOrSkip (a : α) : ℕ × List α → ℕ × List α
  | (0, kept) => (0, a :: kept)
  | (pending + 1, kept) => (pending, kept)

/-- The number of entries still to be skipped, and the entries that are kept. -/
def backward : List (Event α) → ℕ × List α
  | [] => (0, [])
  | .push a :: events => keepOrSkip a (backward events)
  | .pop n :: events => ((backward events).1 + n, (backward events).2)

/-- The backward reading keeps what the forward reading leaves on top of a stack, and the
entries still to be skipped come off the stack. -/
theorem forward_eq (stack : List α) (events : List (Event α)) :
    forward stack events = stack.rdrop (backward events).1 ++ (backward events).2 := by
  induction events generalizing stack with
  | nil => simp [forward, backward]
  | cons event events ih =>
    cases event with
    | push a =>
      rw [forward, backward, ih]
      rcases backward events with ⟨pending, kept⟩
      cases pending with
      | zero => simp [keepOrSkip]
      | succ pending => rw [rdrop_concat_succ]; rfl
    | pop n =>
      rw [forward, backward, ih, rdrop_add, Nat.add_comm]

/-- Both directions keep the same entries. -/
theorem forward_nil_eq (events : List (Event α)) : forward [] events = (backward events).2 := by
  rw [forward_eq, rdrop_nil, nil_append]

theorem forward_append (stack : List α) (front back : List (Event α)) :
    forward stack (front ++ back) = forward (forward stack front) back := by
  induction front generalizing stack with
  | nil => rfl
  | cons event front ih => cases event <;> exact ih _

/-- When taking back entries is taking back as many of their parts. -/
theorem flatMap_rdrop_iff (parts : α → List β) (stack : List α) (n : ℕ) :
    (stack.flatMap parts).rdrop n = (stack.rdrop n).flatMap parts ↔
      ((stack.rtake n).flatMap parts).length = min n (stack.flatMap parts).length := by
  have hsplit : stack.flatMap parts =
      (stack.rdrop n).flatMap parts ++ (stack.rtake n).flatMap parts := by
    rw [← flatMap_append, List.rdrop, List.rtake, take_append_drop]
  rw [hsplit]
  generalize (stack.rdrop n).flatMap parts = kept
  generalize (stack.rtake n).flatMap parts = dropped
  rw [List.rdrop, length_append]
  -- both sides are initial parts of one list, so only their lengths matter
  constructor
  · intro h
    have hlength := congrArg List.length h
    rw [length_take, length_append] at hlength
    omega
  · intro h
    rcases Nat.lt_or_ge dropped.length n with hlt | hge
    · have hkept : kept = [] := eq_nil_of_length_eq_zero (by omega)
      subst hkept
      rw [show ([] : List β).length + dropped.length - n = 0 by simp; omega, take_zero]
    · rw [show kept.length + dropped.length - n = kept.length by omega, take_left]

end RollbackLog
