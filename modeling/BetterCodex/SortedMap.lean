/-
# Maps as lists sorted by key

A finite map is the list of its entries in strictly increasing key order, so that
equal maps are equal lists.
-/
import Mathlib

namespace SortedMap

open List Option

variable {K V : Type} [LinearOrder K]

/-- The value at a key. -/
def get (k : K) : List (K × V) → Option V
  | [] => none
  | (k', v) :: m => if k = k' then some v else get k m

/-- The map with one entry set. -/
def insert (k : K) (v : V) : List (K × V) → List (K × V)
  | [] => [(k, v)]
  | (k', v') :: m =>
    if k < k' then (k, v) :: (k', v') :: m
    else if k = k' then (k, v) :: m
    else (k', v') :: insert k v m

/-- The map without one key. -/
def erase (k : K) (m : List (K × V)) : List (K × V) := m.filter (k ≠ ·.1)

/-- The entries are in strictly increasing key order. -/
def Sorted (m : List (K × V)) : Prop := m.Pairwise (·.1 < ·.1)

@[simp] theorem get_nil (k : K) : get k ([] : List (K × V)) = none := rfl

theorem get_cons (k k' : K) (v : V) (m : List (K × V)) :
    get k ((k', v) :: m) = if k = k' then some v else get k m := rfl

variable {k : K} {v : V} {m : List (K × V)}

theorem mem_of_get (h : get k m = some v) : (k, v) ∈ m := by
  induction m with
  | nil => cases h
  | cons e m ih =>
    rw [get_cons] at h
    split_ifs at h with hk
    · rw [hk, ← some.inj h]
      exact mem_cons_self
    · exact mem_cons_of_mem _ (ih h)

theorem eq_nil_iff_get : m = [] ↔ ∀ k, get k m = none := by
  constructor
  · rintro rfl k
    rfl
  · intro h
    cases m with
    | nil => rfl
    | cons e m =>
      obtain ⟨k, v⟩ := e
      simpa [get_cons] using h k

theorem isSome_get_iff : (get k m).isSome ↔ k ∈ m.map (·.1) := by
  induction m with
  | nil => simp
  | cons e m ih =>
    rw [get_cons, map_cons, mem_cons]
    by_cases hk : k = e.1
    · simp [hk]
    · rw [if_neg hk, ih]
      simp [hk]

/-! ## Lookups after updates -/

theorem get_insert (k k' : K) (v : V) (m : List (K × V)) :
    get k (insert k' v m) = if k = k' then some v else get k m := by
  induction m with
  | nil => rfl
  | cons e m ih =>
    obtain ⟨k'', v''⟩ := e
    rw [insert]
    by_cases hlt : k' < k''
    · rw [if_pos hlt, get_cons]
    · rw [if_neg hlt]
      by_cases heq : k' = k''
      · subst heq
        rw [if_pos rfl, get_cons, get_cons]
        by_cases hk : k = k'
        · rw [if_pos hk, if_pos hk]
        · rw [if_neg hk, if_neg hk, if_neg hk]
      · rw [if_neg heq, get_cons, get_cons, ih]
        by_cases hk : k = k'
        · rw [if_pos hk, if_pos hk, if_neg (hk ▸ heq)]
        · rw [if_neg hk, if_neg hk]

theorem get_erase (k k' : K) (m : List (K × V)) :
    get k (erase k' m) = if k = k' then none else get k m := by
  induction m with
  | nil => simp [erase]
  | cons e m ih =>
    obtain ⟨k'', v''⟩ := e
    rw [erase] at ih ⊢
    by_cases hk'' : k' = k''
    · rw [filter_cons_of_neg (by simpa using hk''), ih, get_cons]
      by_cases hk : k = k'
      · rw [if_pos hk, if_pos hk]
      · rw [if_neg hk, if_neg hk, if_neg (hk'' ▸ hk)]
    · rw [filter_cons_of_pos (by simpa using hk''), get_cons, get_cons, ih]
      by_cases hk : k = k'
      · rw [if_pos hk, if_pos hk, if_neg (hk ▸ hk'')]
      · rw [if_neg hk, if_neg hk]

section
variable {k k' : K} {v : V} {m : List (K × V)}

theorem get_insert_self : get k (insert k v m) = some v :=
  (get_insert k k v m).trans (if_pos rfl)

theorem get_insert_of_ne (h : k ≠ k') : get k (insert k' v m) = get k m :=
  (get_insert k k' v m).trans (if_neg h)

theorem get_erase_self : get k (erase k m) = none :=
  (get_erase k k m).trans (if_pos rfl)

theorem get_erase_of_ne (h : k ≠ k') : get k (erase k' m) = get k m :=
  (get_erase k k' m).trans (if_neg h)

theorem get_of_get_erase (h : get k (erase k' m) = some v) : get k m = some v := by
  rw [get_erase] at h
  split_ifs at h
  exact h

end

/-! ## Order -/

theorem mem_insert {e : K × V} (h : e ∈ insert k v m) : e = (k, v) ∨ e ∈ m := by
  induction m with
  | nil => exact Or.inl (mem_singleton.1 h)
  | cons e' m ih =>
    rw [insert] at h
    split_ifs at h with hlt heq
    · exact mem_cons.1 h
    · exact (mem_cons.1 h).imp_right (mem_cons_of_mem _)
    · rcases mem_cons.1 h with rfl | h
      · exact Or.inr mem_cons_self
      · exact (ih h).imp_right (mem_cons_of_mem _)

theorem Sorted.insert (h : Sorted m) : Sorted (insert k v m) := by
  induction m with
  | nil => exact pairwise_singleton _ _
  | cons e m ih =>
    obtain ⟨hhead, htail⟩ := pairwise_cons.1 h
    rw [SortedMap.insert]
    split_ifs with hlt heq
    · refine pairwise_cons.2 ⟨fun e' he' => ?_, h⟩
      rcases mem_cons.1 he' with rfl | he'
      · exact hlt
      · exact hlt.trans (hhead e' he')
    · exact pairwise_cons.2 ⟨fun e' he' => heq ▸ hhead e' he', htail⟩
    · refine pairwise_cons.2 ⟨fun e' he' => ?_, ih htail⟩
      rcases mem_insert he' with rfl | he'
      · exact lt_of_le_of_ne (not_lt.1 hlt) (Ne.symm heq)
      · exact hhead e' he'

theorem Sorted.erase (h : Sorted m) : Sorted (erase k m) :=
  List.Pairwise.filter _ h

/-- A key below all others is not there. -/
theorem get_eq_none_of_lt (h : ∀ e ∈ m, k < e.1) : get k m = none := by
  cases hget : get k m with
  | none => rfl
  | some v => exact absurd (h _ (mem_of_get hget)) (lt_irrefl k)

theorem get_of_mem (hm : Sorted m) (h : (k, v) ∈ m) : get k m = some v := by
  induction m with
  | nil => cases h
  | cons e m ih =>
    obtain ⟨hhead, htail⟩ := pairwise_cons.1 hm
    rcases mem_cons.1 h with rfl | h
    · rw [get_cons, if_pos rfl]
    · rw [get_cons, if_neg (hhead _ h).ne', ih htail h]

/-! ## Sums over the values -/

section
variable {m : List (K × V)} {k : K} (weight : V → ℕ)

/-- The sum of a quantity over the values. -/
def total (m : List (K × V)) : ℕ := (m.map fun e => weight e.2).sum

omit [LinearOrder K] in
theorem total_one (m : List (K × V)) : total (fun _ => 1) m = m.length := by
  simp [total]

theorem total_insert (h : get k m = none) (v : V) :
    total weight (insert k v m) = weight v + total weight m := by
  induction m with
  | nil => rfl
  | cons e m ih =>
    rw [get_cons] at h
    split_ifs at h with hk
    rw [insert, if_neg hk]
    split_ifs with hlt
    · simp [total]
    · have := ih h
      simp only [total, map_cons, sum_cons] at this ⊢
      omega

theorem erase_of_get_eq_none (h : get k m = none) : erase k m = m := by
  induction m with
  | nil => rfl
  | cons e m ih =>
    rw [get_cons] at h
    split_ifs at h with hk
    rw [erase, filter_cons_of_pos (by simpa using hk)]
    exact congrArg (e :: ·) (ih h)

theorem erase_cons_self (v : V) (hm : Sorted ((k, v) :: m)) : erase k ((k, v) :: m) = m := by
  rw [erase, filter_cons_of_neg (by simp)]
  exact erase_of_get_eq_none (get_eq_none_of_lt (pairwise_cons.1 hm).1)

theorem total_erase (hm : Sorted m) {v : V} (h : get k m = some v) :
    total weight m = weight v + total weight (erase k m) := by
  induction m with
  | nil => cases h
  | cons e m ih =>
    obtain ⟨k', v'⟩ := e
    rw [get_cons] at h
    split_ifs at h with hk
    · subst hk
      obtain rfl := some.inj h
      rw [erase_cons_self v' hm]
      rfl
    · have := ih (pairwise_cons.1 hm).2 h
      rw [erase, filter_cons_of_pos (by simpa using hk)]
      rw [erase] at this
      simp only [total, map_cons, sum_cons] at this ⊢
      omega

end

theorem length_erase_lt (h : get k m = some v) : (erase k m).length < m.length :=
  length_filter_lt_length_iff_exists.2 ⟨_, mem_of_get h, by simp⟩

/-! ## Equality -/

/-- Sorted lists with the same values are equal. -/
theorem ext_get {m' : List (K × V)} (hm : Sorted m) (hm' : Sorted m')
    (h : ∀ k, get k m = get k m') : m = m' := by
  induction m generalizing m' with
  | nil =>
    cases m' with
    | nil => rfl
    | cons e m' =>
      have := h e.1
      rw [get_cons, if_pos rfl] at this
      cases this
  | cons e m ih =>
    obtain ⟨k, v⟩ := e
    obtain ⟨hhead, htail⟩ := pairwise_cons.1 hm
    cases m' with
    | nil =>
      have := h k
      rw [get_cons, if_pos rfl] at this
      cases this
    | cons e' m' =>
      obtain ⟨k', v'⟩ := e'
      obtain ⟨hhead', htail'⟩ := pairwise_cons.1 hm'
      -- the smaller of the two first keys is missing in the other list
      have hkey : k = k' := by
        rcases lt_trichotomy k k' with hlt | heq | hgt
        · have hnone : get k ((k', v') :: m') = none := get_eq_none_of_lt fun e he => by
            rcases mem_cons.1 he with rfl | he
            · exact hlt
            · exact hlt.trans (hhead' e he)
          rw [← h k, get_cons, if_pos rfl] at hnone
          cases hnone
        · exact heq
        · have hnone : get k' ((k, v) :: m) = none := get_eq_none_of_lt fun e he => by
            rcases mem_cons.1 he with rfl | he
            · exact hgt
            · exact hgt.trans (hhead e he)
          rw [h k', get_cons, if_pos rfl] at hnone
          cases hnone
      subst hkey
      have hvalue := h k
      rw [get_cons, get_cons, if_pos rfl, if_pos rfl] at hvalue
      rw [some.inj hvalue, ih htail htail' fun k'' => ?_]
      by_cases hk : k'' = k
      · rw [hk, get_eq_none_of_lt hhead, get_eq_none_of_lt hhead']
      · have := h k''
        rwa [get_cons, get_cons, if_neg hk, if_neg hk] at this

/-! ## Sums after an update -/

section
variable {m : List (K × V)} (weight : V → ℕ) (k : K)

theorem total_eq_erase (hm : Sorted m) :
    total weight m = ((get k m).map weight).getD 0 + total weight (erase k m) := by
  cases hget : get k m with
  | none => rw [erase_of_get_eq_none hget, map_none, getD_none, Nat.zero_add]
  | some v => exact total_erase weight hm hget

theorem total_insert_erase (hm : Sorted m) (v : V) :
    total weight (insert k v m) = weight v + total weight (erase k m) := by
  have hreplace : insert k v m = insert k v (erase k m) := by
    refine ext_get hm.insert hm.erase.insert fun k' => ?_
    rw [get_insert, get_insert, get_erase]
    by_cases hk : k' = k
    · rw [if_pos hk, if_pos hk]
    · rw [if_neg hk, if_neg hk, if_neg hk]
  rw [hreplace, total_insert weight (by rw [get_erase, if_pos rfl])]

end

end SortedMap
