/-
# Editing a list by index

A replacement takes a stretch of a list out and puts other elements in its place.
`applyFrom` carries out a list of replacements in one pass, as an editor does that
walks over the list once; `weave` says what the result is without any pass: at each
index the inserted elements, then the element itself unless it is deleted.
-/
import Mathlib

namespace Splice

open List

variable {α β : Type*}

/-- Take `len` elements out from `start` on, and put `new` in their place. -/
structure Replacement (α : Type*) where
  start : ℕ
  len : ℕ
  new : List α
  deriving DecidableEq, Repr

/-- The index behind the stretch that is taken out. -/
def Replacement.stop (r : Replacement α) : ℕ := r.start + r.len

/-- The same replacement with other elements. -/
def Replacement.map (f : β → α) (r : Replacement β) : Replacement α :=
  ⟨r.start, r.len, r.new.map f⟩

/-- One pass over the elements from index `pos` on. -/
def applyFrom : ℕ → List α → List (Replacement α) → List α
  | _, rest, [] => rest
  | pos, rest, r :: rs =>
    rest.take (r.start - pos) ++ r.new
      ++ applyFrom r.stop ((rest.drop (r.start - pos)).drop r.len) rs

/-- The pass from index `pos` on, over a list of `size` elements, never has to go back
and finds every element it takes out. -/
def InRange (size : ℕ) : ℕ → List (Replacement α) → Prop
  | _, [] => True
  | pos, r :: rs => pos ≤ r.start ∧ r.stop ≤ size ∧ InRange size r.stop rs

variable {rs : List (Replacement α)}

theorem inRange_of_pairwise {size pos : ℕ} (hrs : rs.Pairwise fun r r' => r.stop ≤ r'.start)
    (hpos : ∀ r ∈ rs, pos ≤ r.start) (hsize : ∀ r ∈ rs, r.stop ≤ size) : InRange size pos rs := by
  induction rs generalizing pos with
  | nil => trivial
  | cons r rs ih =>
    rw [pairwise_cons] at hrs
    refine ⟨hpos r (mem_cons_self ..), hsize r (mem_cons_self ..), ih hrs.2 hrs.1 ?_⟩
    exact fun r' hr' => hsize r' (mem_cons_of_mem _ hr')

/-- The elements from index `g` on, with the inserted ones and without the deleted. -/
def weave (deleted : ℕ → Bool) (inserted : ℕ → List α) : ℕ → List α → List α
  | g, [] => inserted g
  | g, x :: xs =>
    inserted g ++ (if deleted g then [] else [x]) ++ weave deleted inserted (g + 1) xs

/-- The indices a list of replacements takes out. -/
def deletes (rs : List (Replacement α)) (i : ℕ) : Bool :=
  rs.any (fun r => r.start ≤ i && i < r.stop)

/-- What a list of replacements puts in before index `g`, in the order of the list. -/
def inserts (rs : List (Replacement α)) (g : ℕ) : List α :=
  (rs.filter (fun r => r.start = g)).flatMap (·.new)

/-! ## `weave` -/

theorem weave_cons (d : ℕ → Bool) (ins : ℕ → List α) (g : ℕ) (x : α) (xs : List α) :
    weave d ins g (x :: xs)
      = ins g ++ (if d g then [] else [x]) ++ weave d ins (g + 1) xs := rfl

variable {d : ℕ → Bool} {ins : ℕ → List α} {g : ℕ}

/-- `weave` looks at no index before the first one. -/
theorem weave_congr {d' : ℕ → Bool} {ins' : ℕ → List α} (hd : ∀ i, g ≤ i → d i = d' i)
    (hi : ∀ i, g ≤ i → ins i = ins' i) (xs : List α) : weave d ins g xs = weave d' ins' g xs := by
  induction xs generalizing g with
  | nil => exact hi g le_rfl
  | cons x xs ih =>
    rw [weave_cons, weave_cons, hd g le_rfl, hi g le_rfl,
      ih (fun i h => hd i (Nat.le_of_succ_le h)) (fun i h => hi i (Nat.le_of_succ_le h))]

variable {xs : List α}

/-- A stretch that is neither deleted nor inserted into is kept. -/
theorem weave_append_kept (hd : ∀ i, g ≤ i → i < g + xs.length → d i = false)
    (hi : ∀ i, g ≤ i → i < g + xs.length → ins i = []) (ys : List α) :
    weave d ins g (xs ++ ys) = xs ++ weave d ins (g + xs.length) ys := by
  induction xs generalizing g with
  | nil => rfl
  | cons x xs ih =>
    rw [length_cons] at hd hi ⊢
    rw [cons_append, weave_cons, hd g le_rfl (by omega), hi g le_rfl (by omega),
      ih (fun i h1 h2 => hd i (by omega) (by omega)) (fun i h1 h2 => hi i (by omega) (by omega)),
      show g + 1 + xs.length = g + (xs.length + 1) by omega]
    rfl

/-- Deleted elements disappear; only what is put in before the first one remains. -/
theorem weave_append_deleted {x : α} (hd : ∀ i, g ≤ i → i < g + (xs.length + 1) → d i = true)
    (hi : ∀ i, g < i → i < g + (xs.length + 1) → ins i = []) (ys : List α) :
    weave d ins g (x :: xs ++ ys) = ins g ++ weave d ins (g + (xs.length + 1)) ys := by
  induction xs generalizing g x with
  | nil =>
    rw [cons_append, nil_append, weave_cons, hd g le_rfl (by simp)]
    simp
  | cons x' xs ih =>
    rw [length_cons] at hd hi ⊢
    rw [cons_append, weave_cons, hd g le_rfl (by omega),
      ih (fun i h1 h2 => hd i (by omega) (by omega)) (fun i h1 h2 => hi i (by omega) (by omega)),
      hi (g + 1) (by omega) (by omega),
      show g + 1 + (xs.length + 1) = g + (xs.length + 1 + 1) by omega]
    simp

theorem weave_insert_first {ins' : ℕ → List α} {new : List α} (hfirst : ins g = new ++ ins' g)
    (hrest : ∀ i, g < i → ins i = ins' i) (xs : List α) :
    weave d ins g xs = new ++ weave d ins' g xs := by
  cases xs with
  | nil => exact hfirst
  | cons x xs =>
    rw [weave_cons, weave_cons, hfirst,
      weave_congr (fun i _ => rfl) (fun i h => hrest i (Nat.lt_of_succ_le h))]
    simp

theorem weave_nothing (g : ℕ) (xs : List α) : weave (fun _ => false) (fun _ => []) g xs = xs := by
  have h : weave (fun _ => false) (fun _ => []) g (xs ++ [])
      = xs ++ weave (fun _ => false) (fun _ => []) (g + xs.length) [] :=
    weave_append_kept (fun _ _ _ => rfl) (fun _ _ _ => rfl) []
  rw [append_nil] at h
  rw [h]
  simp [weave]

/-! ## One pass -/

@[simp] theorem deletes_cons (r : Replacement α) (rs : List (Replacement α)) (i : ℕ) :
    deletes (r :: rs) i = (decide (r.start ≤ i ∧ i < r.stop) || deletes rs i) := by
  simp [deletes, Bool.decide_and]

theorem inserts_cons (r : Replacement α) (rs : List (Replacement α)) (g : ℕ) :
    inserts (r :: rs) g = (if r.start = g then r.new else []) ++ inserts rs g := by
  unfold inserts
  by_cases h : r.start = g <;> simp [h]

theorem deletes_append (rs rs' : List (Replacement α)) (i : ℕ) :
    deletes (rs ++ rs') i = (deletes rs i || deletes rs' i) := any_append

theorem inserts_append (rs rs' : List (Replacement α)) (g : ℕ) :
    inserts (rs ++ rs') g = inserts rs g ++ inserts rs' g := by
  unfold inserts
  rw [filter_append, flatMap_append]

variable {r : Replacement α}

/-- A replacement may be left out when it takes nothing out and puts nothing in. -/
theorem deletes_ite {p : Prop} [Decidable p] (h : ¬ p → r.len = 0) (i : ℕ) :
    deletes (if p then [r] else []) i = decide (r.start ≤ i ∧ i < r.stop) := by
  by_cases hp : p
  · rw [if_pos hp, deletes_cons]
    exact Bool.or_false _
  · have hstop : r.stop = r.start := by unfold Replacement.stop; rw [h hp, Nat.add_zero]
    rw [if_neg hp, decide_eq_false (by omega)]
    rfl

theorem inserts_ite {p : Prop} [Decidable p] (h : ¬ p → r.new = []) (g : ℕ) :
    inserts (if p then [r] else []) g = if r.start = g then r.new else [] := by
  by_cases hp : p
  · rw [if_pos hp, inserts_cons]
    exact append_nil _
  · rw [if_neg hp, h hp, ite_self]
    rfl

/-- Replacements from some index on touch nothing before it. -/
theorem deletes_eq_false {i : ℕ} (h : ∀ r ∈ rs, i < r.start) : deletes rs i = false := by
  unfold deletes
  rw [any_eq_false]
  intro r hr
  have := h r hr
  simp
  omega

theorem inserts_eq_nil (h : ∀ r ∈ rs, r.start ≠ g) : inserts rs g = [] := by
  unfold inserts
  rw [filter_eq_nil_iff.mpr (fun r hr => by simpa using h r hr)]
  rfl

theorem applyFrom_cons (pos : ℕ) (xs : List α) (r : Replacement α) (rs : List (Replacement α)) :
    applyFrom pos xs (r :: rs)
      = xs.take (r.start - pos) ++ r.new
        ++ applyFrom r.stop ((xs.drop (r.start - pos)).drop r.len) rs := rfl

/-- The first replacement, and the rest behind it. -/
theorem weave_replacement (hr : ∀ r' ∈ rs, r.stop ≤ r'.start) {out : List α}
    (hout : out.length = r.len) (after : List α) :
    weave (deletes (r :: rs)) (inserts (r :: rs)) r.start (out ++ after)
      = r.new ++ weave (deletes rs) (inserts rs) r.stop after := by
  have hstop : r.stop = r.start + r.len := rfl
  have hfirst : inserts (r :: rs) r.start = r.new ++ inserts rs r.start := by
    rw [inserts_cons, if_pos rfl]
  have hlater : ∀ i, r.start ≤ i → r.stop ≤ i → deletes (r :: rs) i = deletes rs i := by
    intro i _ hi
    rw [deletes_cons, decide_eq_false (by omega), Bool.false_or]
  cases out with
  | nil =>
    have hzero : r.stop = r.start := by rw [hstop, ← hout]; rfl
    rw [nil_append, hzero, weave_insert_first hfirst]
    · rw [weave_congr (fun i hi => hlater i hi (by omega)) (fun i _ => rfl)]
    · intro i hi
      rw [inserts_cons, if_neg (by omega), nil_append]
  | cons x out =>
    rw [length_cons] at hout
    rw [weave_append_deleted, hfirst, inserts_eq_nil (fun r' h' => by have := hr r' h'; omega),
      append_nil, hout, ← hstop]
    · congr 1
      refine weave_congr (fun i hi => hlater i (by omega) hi) (fun i hi => ?_) after
      rw [inserts_cons, if_neg (by omega), nil_append]
    · intro i h1 h2
      rw [deletes_cons, decide_eq_true (by omega), Bool.true_or]
    · intro i h1 h2
      refine inserts_eq_nil (fun r' h' => ?_)
      rcases mem_cons.mp h' with rfl | h'
      · omega
      · have := hr r' h'
        omega

/-- **One pass** over replacements in order, without overlaps, is `weave`. -/
theorem applyFrom_eq_weave (hsorted : rs.Pairwise (fun r r' => r.stop ≤ r'.start)) {pos : ℕ}
    (hpos : ∀ r ∈ rs, pos ≤ r.start) (hlen : ∀ r ∈ rs, r.stop ≤ pos + xs.length) :
    applyFrom pos xs rs = weave (deletes rs) (inserts rs) pos xs := by
  induction rs generalizing pos xs with
  | nil => exact (weave_nothing pos xs).symm
  | cons r rs ih =>
    obtain ⟨hr, hrs⟩ := pairwise_cons.mp hsorted
    have hpos' : pos ≤ r.start := hpos r (mem_cons_self ..)
    have hlen' : r.stop ≤ pos + xs.length := hlen r (mem_cons_self ..)
    have hstop : r.stop = r.start + r.len := rfl
    -- the list is what stands before the stretch, the stretch, and the rest
    obtain ⟨before, rest, rfl, hbefore⟩ : ∃ before rest, xs = before ++ rest
        ∧ before.length = r.start - pos :=
      ⟨xs.take (r.start - pos), xs.drop (r.start - pos), (take_append_drop _ _).symm,
        by rw [length_take]; omega⟩
    rw [length_append] at hlen'
    obtain ⟨out, after, rfl, hout⟩ : ∃ out after, rest = out ++ after ∧ out.length = r.len :=
      ⟨rest.take r.len, rest.drop r.len, (take_append_drop _ _).symm,
        by rw [length_take]; omega⟩
    have happly : applyFrom pos (before ++ (out ++ after)) (r :: rs)
        = before ++ (r.new ++ applyFrom r.stop after rs) := by
      rw [applyFrom_cons, ← hbefore, take_left, drop_left, ← hout, drop_left, append_assoc]
    have hkept : weave (deletes (r :: rs)) (inserts (r :: rs)) pos (before ++ (out ++ after))
        = before ++ weave (deletes (r :: rs)) (inserts (r :: rs)) r.start (out ++ after) := by
      have hfrom : ∀ r' ∈ r :: rs, r.start ≤ r'.start := by
        intro r' h'
        rcases mem_cons.mp h' with rfl | h'
        · exact le_rfl
        · have := hr r' h'
          omega
      rw [weave_append_kept, hbefore, Nat.add_sub_cancel' hpos']
      · intro i h1 h2
        exact deletes_eq_false (fun r' h' => by have := hfrom r' h'; omega)
      · intro i h1 h2
        exact inserts_eq_nil (fun r' h' => by have := hfrom r' h'; omega)
    rw [happly, hkept, weave_replacement hr hout, ih hrs hr]
    intro r' h'
    have := hlen r' (mem_cons_of_mem _ h')
    simp only [length_append] at this hlen'
    omega

/-! ## Sorting the replacements first -/

/-- Two replacements, the first one collected earlier: it ends before the second
starts, or it only inserts, behind the second. -/
def Compatible (r r' : Replacement α) : Prop :=
  r.stop ≤ r'.start ∨ (r.len = 0 ∧ r'.stop ≤ r.start)

/-- Stable sorting by the start. -/
def sortByStart (rs : List (Replacement α)) : List (Replacement α) :=
  rs.insertionSort (fun r r' => r.start ≤ r'.start)

theorem mem_sortByStart : r ∈ sortByStart rs ↔ r ∈ rs := mem_insertionSort _

/-- Sorting a new replacement in keeps the order without overlaps. -/
theorem pairwise_orderedInsert (hrs : rs.Pairwise (fun r r' => r.stop ≤ r'.start))
    (hr : ∀ r' ∈ rs, Compatible r r') :
    (rs.orderedInsert (fun r r' => r.start ≤ r'.start) r).Pairwise
      (fun r r' => r.stop ≤ r'.start) := by
  induction rs with
  | nil => exact pairwise_singleton _ _
  | cons b rs ih =>
    obtain ⟨hb, hrest⟩ := pairwise_cons.mp hrs
    have hrb := hr b (mem_cons_self ..)
    have hstop : ∀ x : Replacement α, x.stop = x.start + x.len := fun _ => rfl
    by_cases hle : r.start ≤ b.start
    · rw [orderedInsert_cons, if_pos hle]
      refine pairwise_cons.mpr ⟨?_, hrs⟩
      intro x hx
      have hbx : b.start ≤ x.start := by
        rcases mem_cons.mp hx with rfl | hx
        · exact le_rfl
        · have := hb x hx
          have := hstop b
          omega
      have := hstop r
      rcases hr x hx with h | h <;> omega
    · rw [orderedInsert_cons, if_neg hle]
      refine pairwise_cons.mpr ⟨?_, ih hrest (fun x hx => hr x (mem_cons_of_mem _ hx))⟩
      intro x hx
      rcases (mem_orderedInsert _).mp hx with rfl | hx
      · have := hstop x
        rcases hrb with h | h <;> omega
      · exact hb x hx

theorem pairwise_sortByStart (h : rs.Pairwise Compatible) :
    (sortByStart rs).Pairwise (fun r r' => r.stop ≤ r'.start) := by
  induction rs with
  | nil => exact List.Pairwise.nil
  | cons r rs ih =>
    obtain ⟨hr, hrs⟩ := pairwise_cons.mp h
    exact pairwise_orderedInsert (ih hrs) (fun r' h' => hr r' (mem_sortByStart.mp h'))

theorem deletes_sortByStart (rs : List (Replacement α)) : deletes (sortByStart rs) = deletes rs := by
  funext i
  exact (perm_insertionSort _ rs).any_eq

/-- Sorting is stable: what is put in at one index stays in order. -/
theorem inserts_orderedInsert (hrs : rs.Pairwise (fun r r' => r.stop ≤ r'.start)) (g : ℕ) :
    inserts (rs.orderedInsert (fun r r' => r.start ≤ r'.start) r) g = inserts (r :: rs) g := by
  induction rs with
  | nil => rfl
  | cons b rs ih =>
    by_cases hle : r.start ≤ b.start
    · rw [orderedInsert_cons, if_pos hle]
    · rw [orderedInsert_cons, if_neg hle, inserts_cons, ih (pairwise_cons.mp hrs).2,
        inserts_cons, inserts_cons, inserts_cons]
      -- `b` starts before `r`, so at most one of the two is put in at `g`
      by_cases hb : b.start = g
      · rw [if_neg (by omega : ¬ r.start = g)]
        simp
      · rw [if_neg hb]
        simp

theorem inserts_sortByStart (h : rs.Pairwise Compatible) (g : ℕ) :
    inserts (sortByStart rs) g = inserts rs g := by
  induction rs with
  | nil => rfl
  | cons r rs ih =>
    have hrs := (pairwise_cons.mp h).2
    have hstep : inserts (sortByStart (r :: rs)) g = inserts (r :: sortByStart rs) g :=
      inserts_orderedInsert (pairwise_sortByStart hrs) g
    rw [hstep, inserts_cons, inserts_cons, ih hrs]

theorem deletes_map (f : β → α) (rs : List (Replacement β)) :
    deletes (rs.map (Replacement.map f)) = deletes rs := by
  funext i
  unfold deletes
  rw [any_map]
  rfl

theorem inserts_map (f : β → α) (rs : List (Replacement β)) (g : ℕ) :
    inserts (rs.map (Replacement.map f)) g = (inserts rs g).map f := by
  induction rs with
  | nil => rfl
  | cons r rs ih =>
    rw [map_cons, inserts_cons, inserts_cons, ih, map_append]
    congr 1
    show (if r.start = g then r.new.map f else []) = _
    split_ifs <;> rfl

/-- **Sorted pass.**  Compatible replacements, sorted by their start and applied in one
pass, do what `weave` says of them in the order they were collected. -/
theorem applyFrom_sort_eq_weave (f : β → α) {rs : List (Replacement β)} (h : rs.Pairwise Compatible)
    (hlen : ∀ r ∈ rs, r.stop ≤ xs.length) :
    applyFrom 0 xs ((sortByStart rs).map (Replacement.map f))
      = weave (deletes rs) (fun g => (inserts rs g).map f) 0 xs := by
  rw [applyFrom_eq_weave, deletes_map, deletes_sortByStart, funext (inserts_map f _),
    funext (inserts_sortByStart h)]
  · exact pairwise_map.mpr (pairwise_sortByStart h)
  · exact fun _ _ => Nat.zero_le _
  · intro r hr
    obtain ⟨r', hr', rfl⟩ := mem_map.mp hr
    rw [Nat.zero_add]
    exact hlen r' (mem_sortByStart.mp hr')

end Splice
