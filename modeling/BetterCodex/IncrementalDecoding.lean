/-
# Decoding a stream that arrives in pieces

A decoder keeps the bytes that it could not use yet.  It looks at the front of its
buffer: a whole item, not enough bytes, or an error.
-/
import Mathlib

namespace IncrementalDecoding

variable {B M E : Type}

/-- What stands at the front of a buffer. -/
inductive Next (B M E : Type) where
  | more
  | item (m : M) (rest : List B)
  | bad (e : E)

/-- Take items off the front as long as one is complete.  The second component is what
stays in the buffer. -/
def drain (next : List B → Next B M E) : ℕ → List B → List M → Except E (List M) × List B
  | 0, buffer, items => (.ok items, buffer)
  | fuel + 1, buffer, items =>
    match next buffer with
    | .more => (.ok items, buffer)
    | .item m rest => drain next fuel rest (items ++ [m])
    | .bad e => (.error e, buffer)

/-- The frames of valid items tell where they end. -/
structure SelfDelimiting (next : List B → Next B M E) (frame : M → List B) (Valid : M → Prop) :
    Prop where
  ne_nil : ∀ m, Valid m → frame m ≠ []
  nil : next [] = .more
  whole : ∀ m, Valid m → ∀ rest, next (frame m ++ rest) = .item m rest
  part : ∀ m, Valid m → ∀ part, part <+: frame m → part.length < (frame m).length →
    next part = .more

variable {next : List B → Next B M E} {frame : M → List B} {Valid : M → Prop}

theorem drain_of_more {buffer : List B} (h : next buffer = .more) (fuel : ℕ) (items : List M) :
    drain next fuel buffer items = (.ok items, buffer) := by
  cases fuel with
  | zero => rfl
  | succ fuel => rw [drain, h]

/-- **Every cut of a stream.**  The buffer is the front of a stream of items: `drain` finds
the items that are whole, and what stays is the front of the rest of the stream, too short
for its first item. -/
theorem drain_stream (h : SelfDelimiting next frame Valid) {stream : List M}
    (hvalid : ∀ m ∈ stream, Valid m) {buffer later : List B}
    (hbuffer : buffer ++ later = stream.flatMap frame) {fuel : ℕ} (hfuel : buffer.length ≤ fuel)
    (items : List M) :
    ∃ done rest tail, stream = done ++ rest ∧
      drain next fuel buffer items = (.ok (items ++ done), tail) ∧
      tail ++ later = rest.flatMap frame ∧
      ∀ m ∈ rest.head?, tail.length < (frame m).length := by
  induction stream generalizing buffer fuel items with
  | nil =>
    obtain ⟨rfl, rfl⟩ := List.append_eq_nil_iff.1 hbuffer
    refine ⟨[], [], [], rfl, ?_, rfl, fun m hm => absurd hm (Option.not_mem_none m)⟩
    rw [drain_of_more h.nil, List.append_nil]
  | cons m stream ih =>
    have hm := hvalid m List.mem_cons_self
    rw [List.flatMap_cons] at hbuffer
    by_cases hlength : buffer.length < (frame m).length
    · have hpart : buffer <+: frame m :=
        List.prefix_of_prefix_length_le ⟨later, hbuffer⟩ ⟨_, rfl⟩ (Nat.le_of_lt hlength)
      refine ⟨[], m :: stream, buffer, rfl, ?_, hbuffer, fun m' hm' => ?_⟩
      · rw [drain_of_more (h.part m hm buffer hpart hlength), List.append_nil]
      · exact Option.some.inj hm' ▸ hlength
    · -- the whole frame is there; the rest of the buffer is the front of the other items
      obtain ⟨buffer', rfl⟩ : frame m <+: buffer :=
        List.prefix_of_prefix_length_le ⟨_, rfl⟩ ⟨later, hbuffer⟩ (Nat.not_lt.1 hlength)
      rw [List.append_assoc, List.append_cancel_left_eq] at hbuffer
      have hpos := List.length_pos_iff.2 (h.ne_nil m hm)
      rw [List.length_append] at hfuel
      obtain ⟨fuel, rfl⟩ : ∃ n, fuel = n + 1 := ⟨fuel - 1, by omega⟩
      have hfuel' : buffer'.length ≤ fuel := by omega
      obtain ⟨done, rest, tail, hstream, hdrain, htail, hshort⟩ :=
        ih (fun m' hm' => hvalid m' (List.mem_cons_of_mem m hm')) hbuffer hfuel' (items ++ [m])
      refine ⟨m :: done, rest, tail, by rw [hstream, List.cons_append], ?_, htail, hshort⟩
      rw [drain, h.whole m hm]
      dsimp only
      rw [hdrain, List.append_assoc, List.singleton_append]

/-- What holds of the items taken, and is kept by what stays in the buffer, holds of all items. -/
theorem drain_items {P : List B → Prop} {Q : M → Prop}
    (hitem : ∀ buffer m rest, P buffer → next buffer = .item m rest → Q m ∧ P rest)
    {fuel : ℕ} {buffer tail : List B} {items done : List M} (hbuffer : P buffer)
    (hitems : ∀ m ∈ items, Q m) (h : drain next fuel buffer items = (.ok done, tail)) :
    ∀ m ∈ done, Q m := by
  induction fuel generalizing buffer items with
  | zero =>
    obtain ⟨hdone, -⟩ := Prod.mk.inj h
    exact Except.ok.inj hdone ▸ hitems
  | succ fuel ih =>
    rw [drain] at h
    cases hnext : next buffer with
    | more =>
      rw [hnext] at h
      obtain ⟨hdone, -⟩ := Prod.mk.inj h
      exact Except.ok.inj hdone ▸ hitems
    | item m rest =>
      rw [hnext] at h
      obtain ⟨hm, hrest⟩ := hitem buffer m rest hbuffer hnext
      refine ih hrest (fun m' hm' => ?_) h
      rcases List.mem_append.1 hm' with hm' | hm'
      · exact hitems m' hm'
      · exact List.mem_singleton.1 hm' ▸ hm
    | bad e =>
      rw [hnext] at h
      cases (Prod.mk.inj h).1

end IncrementalDecoding
