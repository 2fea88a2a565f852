/-
# Lists in chunks

A list is cut into chunks of one size, and the last chunk takes what is left.
-/
import Mathlib

namespace Chunking

open List

/-! ## Division that rounds up -/

def divCeil (n k : ℕ) : ℕ := n / k + if n % k = 0 then 0 else 1

/-- Division that rounds up, by the one fact that is used of it. -/
theorem divCeil_le_iff {k : ℕ} (hk : 0 < k) (n m : ℕ) : divCeil n k ≤ m ↔ n ≤ m * k := by
  have hdiv := Nat.div_add_mod n k
  unfold divCeil
  split_ifs with h
  · rw [h, Nat.add_zero] at hdiv
    rw [Nat.add_zero]
    constructor
    · intro hle
      calc n = k * (n / k) := hdiv.symm
        _ ≤ k * m := Nat.mul_le_mul_left k hle
        _ = m * k := Nat.mul_comm k m
    · intro hle
      exact Nat.div_le_of_le_mul (by rw [Nat.mul_comm]; exact hle)
  · rw [Nat.succ_le_iff, Nat.div_lt_iff_lt_mul hk]
    constructor
    · intro hlt
      exact le_of_lt hlt
    · intro hle
      refine lt_of_le_of_ne hle fun heq => h ?_
      rw [heq]
      exact Nat.mul_mod_left m k

theorem le_divCeil_mul {k : ℕ} (hk : 0 < k) (n : ℕ) : n ≤ divCeil n k * k :=
  (divCeil_le_iff hk n _).1 le_rfl

theorem lt_divCeil_iff {k : ℕ} (hk : 0 < k) (n m : ℕ) : m < divCeil n k ↔ m * k < n := by
  rw [← not_le, divCeil_le_iff hk, not_le]

theorem divCeil_pos {n k : ℕ} (hn : 0 < n) (hk : 0 < k) : 0 < divCeil n k := by
  rw [lt_divCeil_iff hk, Nat.zero_mul]
  exact hn

theorem divCeil_self {n : ℕ} (hn : 0 < n) : divCeil n n = 1 := by
  unfold divCeil
  rw [Nat.div_self hn, Nat.mod_self, if_pos rfl]

/-! ## Chunks -/

variable {α : Type}

def chunks (c : ℕ) (l : List α) : List (List α) :=
  (List.range (divCeil l.length c)).map fun i => (l.drop (i * c)).take c

/-- The number of chunks. -/
theorem length_chunks (c : ℕ) (l : List α) : (chunks c l).length = divCeil l.length c := by
  rw [chunks, length_map, length_range]

theorem getElem?_chunks {c : ℕ} {l : List α} {i : ℕ} {chunk : List α} :
    (chunks c l)[i]? = some chunk ↔
      i < divCeil l.length c ∧ (l.drop (i * c)).take c = chunk := by
  rw [chunks, getElem?_map]
  constructor
  · intro h
    obtain ⟨j, hj, rfl⟩ := Option.map_eq_some_iff.1 h
    obtain ⟨hlt, hij⟩ := List.getElem?_eq_some_iff.1 hj
    rw [length_range] at hlt
    rw [getElem_range] at hij
    subst hij
    exact ⟨hlt, rfl⟩
  · rintro ⟨hlt, rfl⟩
    rw [getElem?_range hlt]
    rfl

theorem length_chunk {c : ℕ} {l : List α} {i : ℕ} {chunk : List α}
    (h : (chunks c l)[i]? = some chunk) : chunk.length = min c (l.length - i * c) := by
  obtain ⟨-, rfl⟩ := getElem?_chunks.1 h
  rw [length_take, length_drop]

theorem flatten_range_chunks (c : ℕ) (l : List α) (k : ℕ) :
    ((List.range k).map fun i => (l.drop (i * c)).take c).flatten = l.take (k * c) := by
  induction k with
  | zero => simp
  | succ k ih =>
    rw [range_succ, map_append, flatten_append, ih, map_singleton,
      flatten_singleton, Nat.succ_mul, take_add]

/-- **The chunks of a list make it up.** -/
theorem flatten_chunks {c : ℕ} (hc : 0 < c) (l : List α) : (chunks c l).flatten = l := by
  rw [chunks, flatten_range_chunks, take_of_length_le]
  exact le_divCeil_mul hc l.length

end Chunking
