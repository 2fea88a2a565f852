/-
# The strongest of the rules that apply

Rules are ranked by a linear order, and of the rules that apply to a question one of the
highest rank decides it.
-/
import Mathlib

namespace DeepestRule

variable {ι κ : Type*} [LinearOrder κ]

/-- The last rule of highest rank among those that apply (`Iterator::max_by_key`). -/
def strongest (rules : List ι) (applies : ι → Bool) (rank : ι → κ) : Option ι :=
  (rules.filter applies).reverse.argmax rank

/-- The rule applies, and no rule that applies outranks it. -/
structure Decides (rules : List ι) (applies : ι → Prop) (rank : ι → κ) (rule : ι) : Prop where
  mem : rule ∈ rules
  holds : applies rule
  le : ∀ other ∈ rules, applies other → rank other ≤ rank rule

variable {rules : List ι} {rank : ι → κ} {rule other : ι}

/-- What is found decides. -/
theorem strongest_spec {applies : ι → Bool} (h : strongest rules applies rank = some rule) :
    Decides rules (fun r => applies r = true) rank rule := by
  have hmem : rule ∈ (rules.filter applies).reverse := List.argmax_mem h
  obtain ⟨hrule, happlies⟩ := List.mem_filter.1 (List.mem_reverse.1 hmem)
  refine ⟨hrule, happlies, fun r hr ha => ?_⟩
  exact List.le_of_mem_argmax (List.mem_reverse.2 (List.mem_filter.2 ⟨hr, ha⟩)) h

theorem strongest_eq_none_iff {applies : ι → Bool} :
    strongest rules applies rank = none ↔ ∀ r ∈ rules, applies r = false := by
  rw [strongest, List.argmax_eq_none, List.reverse_eq_nil_iff, List.filter_eq_nil_iff]
  simp only [Bool.not_eq_true]

namespace Decides

variable {applies : ι → Prop}

/-- All deciding rules have one rank. -/
theorem rank_eq (h : Decides rules applies rank rule) (h' : Decides rules applies rank other) :
    rank rule = rank other :=
  le_antisymm (h'.le _ h.mem h.holds) (h.le _ h'.mem h'.holds)

end Decides

/-- If a rule applies, one decides. -/
theorem exists_decides {applies : ι → Prop} (h : ∃ r ∈ rules, applies r) :
    ∃ r, Decides rules applies rank r := by
  classical
  obtain ⟨r, hr, happlies⟩ := h
  cases hs : strongest rules (fun r => decide (applies r)) rank with
  | none =>
    have hfalse := strongest_eq_none_iff.1 hs r hr
    exact absurd (decide_eq_true happlies) (by rw [hfalse]; exact Bool.false_ne_true)
  | some best =>
    have hbest := strongest_spec hs
    refine ⟨best, hbest.mem, of_decide_eq_true hbest.holds, fun o ho hao => ?_⟩
    exact hbest.le o ho (decide_eq_true hao)

/-- **What the deciding rules have in common.**  If a property depends on the rank only, the deciding
rules have it exactly if every rule without it that applies is outranked by one with it. -/
theorem forall_decides_iff {applies : ι → Prop} {P : ι → Prop}
    (hP : ∀ a b, rank a = rank b → P a → P b) :
    (∀ rule, Decides rules applies rank rule → P rule) ↔
      ∀ rule ∈ rules, applies rule → ¬ P rule →
        ∃ other ∈ rules, applies other ∧ rank rule < rank other ∧ P other := by
  constructor
  · intro h rule hrule happlies hnot
    obtain ⟨best, hbest⟩ : ∃ best, Decides rules applies rank best :=
      exists_decides ⟨rule, hrule, happlies⟩
    have hne : rank rule ≠ rank best := fun heq => hnot (hP _ _ heq.symm (h best hbest))
    exact ⟨best, hbest.mem, hbest.holds, lt_of_le_of_ne (hbest.le rule hrule happlies) hne,
      h best hbest⟩
  · intro h rule hrule
    by_contra hnot
    obtain ⟨other, hmem, happlies, hlt, -⟩ := h rule hrule.mem hrule.holds hnot
    exact absurd (hrule.le other hmem happlies) (not_le.2 hlt)

end DeepestRule
