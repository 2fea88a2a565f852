/-
# Positions in a list

What is left of a list when some positions are kept.
-/
import Mathlib

namespace Indices

variable {α : Type}

/-! ## Keeping some positions -/

/-- The elements from position `start` on whose position is kept. -/
def keepFrom (keep : ℕ → Bool) : ℕ → List α → List α
  | _, [] => []
  | start, a :: l =>
    if keep start then a :: keepFrom keep (start + 1) l else keepFrom keep (start + 1) l

/-- The elements whose position is kept. -/
def keepAt (keep : ℕ → Bool) (l : List α) : List α := keepFrom keep 0 l

variable {keep : ℕ → Bool} {start : ℕ} {l : List α}

theorem keepFrom_congr {keep' : ℕ → Bool}
    (h : ∀ i, start ≤ i → i < start + l.length → keep i = keep' i) :
    keepFrom keep start l = keepFrom keep' start l := by
  induction l generalizing start with
  | nil => rfl
  | cons a l ih =>
    rw [List.length_cons] at h
    rw [keepFrom, keepFrom, h start (le_rfl) (by omega),
      ih fun i hi hlt => h i (by omega) (by omega)]

theorem keepFrom_eq_filter {p : α → Bool} (h : ∀ i a, l[i]? = some a → keep (start + i) = p a) :
    keepFrom keep start l = l.filter p := by
  induction l generalizing start with
  | nil => rfl
  | cons a l ih =>
    have hhead : keep start = p a := h 0 a rfl
    have htail : keepFrom keep (start + 1) l = l.filter p := ih fun i b hb => by
      rw [Nat.add_assoc, Nat.add_comm 1 i]
      exact h (i + 1) b hb
    rw [keepFrom, List.filter_cons, hhead, htail]

/-- Giving up one more position takes out one element. -/
theorem keepFrom_perm_erase {keep' : ℕ → Bool} {i : ℕ} {a : α} (ha : l[i]? = some a)
    (hkeep : keep (start + i) = true) (hkeep' : keep' (start + i) = false)
    (hother : ∀ j, j ≠ start + i → keep j = keep' j) :
    (keepFrom keep start l).Perm (a :: keepFrom keep' start l) := by
  induction l generalizing start i with
  | nil => cases ha
  | cons b l ih =>
    cases i with
    | zero =>
      obtain rfl : b = a := Option.some.inj ha
      rw [Nat.add_zero] at hkeep hkeep'
      have htail : keepFrom keep (start + 1) l = keepFrom keep' (start + 1) l :=
        keepFrom_congr fun j hj _ => hother j (by omega)
      rw [keepFrom, keepFrom, hkeep, hkeep', if_pos rfl, if_neg Bool.false_ne_true, htail]
    | succ i =>
      have hshift : start + 1 + i = start + (i + 1) := by omega
      have hrest : (keepFrom keep (start + 1) l).Perm (a :: keepFrom keep' (start + 1) l) :=
        ih ha (hshift ▸ hkeep) (hshift ▸ hkeep') fun j hj => hother j (hshift ▸ hj)
      rw [keepFrom, keepFrom, hother start (by omega)]
      split_ifs
      · exact (hrest.cons b).trans (List.Perm.swap a b _)
      · exact hrest

/-- A sum over the positions of which one changes. -/
theorem sum_mapIdx_replace {f g : ℕ → α → ℕ} {s : ℕ} {a : α} (ha : l[s]? = some a)
    (hother : ∀ j b, l[j]? = some b → j ≠ s → f j b = g j b) :
    (l.mapIdx f).sum + g s a = (l.mapIdx g).sum + f s a := by
  induction l generalizing s f g with
  | nil => cases ha
  | cons b l ih =>
    rw [List.mapIdx_cons, List.mapIdx_cons, List.sum_cons, List.sum_cons]
    cases s with
    | zero =>
      obtain rfl : b = a := Option.some.inj ha
      have htail : l.mapIdx (fun i => f (i + 1)) = l.mapIdx fun i => g (i + 1) :=
        List.mapIdx_eq_mapIdx_iff.2 fun i hi =>
          hother (i + 1) l[i] (List.getElem?_eq_getElem hi) (Nat.succ_ne_zero i)
      rw [htail]
      omega
    | succ s =>
      have hhead : f 0 b = g 0 b := hother 0 b rfl (by omega)
      have htail := ih (f := fun i => f (i + 1)) (g := fun i => g (i + 1)) ha fun j c hc hj =>
        hother (j + 1) c hc (by omega)
      omega

end Indices
