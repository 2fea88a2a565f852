/-
# Searching a text that arrives in pieces

A search for a needle in a text whose end is not there yet may only give up the part of the
text that no occurrence can begin in.  What has to be kept is the longest end of the text
that is a proper front of the needle.
-/
import BetterCodex.RustStr

namespace RustStr

open List Option

variable {needle s : Text}

/-- The length of the longest end of the text that is a proper front of the needle. -/
def longestSuffixPrefixLen (s needle : Text) : ℕ :=
  Nat.findGreatest (fun k => endsWith s (needle.take k)) (min s.length (needle.length - 1))

theorem endsWith_iff {s t : Text} : endsWith s t = true ↔ t <:+ s := isSuffixOf_iff_suffix

theorem take_longest_suffix (s needle : Text) : needle.take (longestSuffixPrefixLen s needle) <:+ s := by
  have hnone : endsWith s (needle.take 0) = true := endsWith_iff.2 nil_suffix
  exact endsWith_iff.1 (Nat.findGreatest_spec (P := fun k => endsWith s (needle.take k)) (Nat.zero_le _) hnone)

theorem longestSuffixPrefixLen_le : longestSuffixPrefixLen s needle ≤ min s.length (needle.length - 1) :=
  Nat.findGreatest_le _

theorem length_take_longest :
    (needle.take (longestSuffixPrefixLen s needle)).length = longestSuffixPrefixLen s needle := by
  have h : longestSuffixPrefixLen s needle ≤ min s.length (needle.length - 1) := longestSuffixPrefixLen_le
  rw [length_take]
  omega

theorem length_le_longest {t : Text} (hs : t <:+ s) (hneedle : t <+: needle)
    (hlt : t.length < needle.length) : t.length ≤ longestSuffixPrefixLen s needle := by
  refine Nat.le_findGreatest ?_ ?_
  · have := hs.length_le
    omega
  · rw [← prefix_iff_eq_take.1 hneedle]
    exact endsWith_iff.2 hs

/-- The part of the text that can be given up. -/
def givenUp (s needle : Text) : Text := s.take (s.length - longestSuffixPrefixLen s needle)

/-- The end of the text that has to be kept. -/
def kept (s needle : Text) : Text := s.drop (s.length - longestSuffixPrefixLen s needle)

theorem givenUp_append_kept (s needle : Text) : givenUp s needle ++ kept s needle = s :=
  take_append_drop _ s

theorem kept_eq_take (s needle : Text) : kept s needle = needle.take (longestSuffixPrefixLen s needle) := by
  have hkept := suffix_iff_eq_drop.1 (take_longest_suffix s needle)
  rw [length_take_longest] at hkept
  exact hkept.symm

theorem length_kept (s needle : Text) : (kept s needle).length = longestSuffixPrefixLen s needle := by
  rw [kept_eq_take, length_take_longest]

/-- A longer end of the text than the kept one is no proper front of the needle. -/
theorem not_prefix_of_given_up {front t : Text} (ht : t ≠ []) (hs : s = front ++ (t ++ kept s needle))
    (hlt : (t ++ kept s needle).length < needle.length) : ¬ t ++ kept s needle <+: needle := by
  intro hprefix
  have hle := length_le_longest ⟨front, hs.symm⟩ hprefix hlt
  rw [length_append, length_kept] at hle
  have hpos := length_pos_iff.2 ht
  omega

/-! ## First occurrences -/

theorem stripPrefix_eq_none_iff {p s : Text} : stripPrefix p s = none ↔ ¬ p <+: s := by
  constructor
  · rintro h ⟨rest, rfl⟩
    rw [stripPrefix_append] at h
    cases h
  · intro h
    rw [eq_none_iff_forall_ne_some]
    intro rest hrest
    exact h ⟨rest, (stripPrefix_eq_some_iff.1 hrest).symm⟩

/-- A front in which no occurrence begins can be put aside. -/
theorem splitOnce_append {front later : Text}
    (h : ∀ front₁ t, front = front₁ ++ t → t ≠ [] → ¬ needle <+: t ++ later) :
    splitOnce needle (front ++ later) =
      (splitOnce needle later).map fun cut => (front ++ cut.1, cut.2) := by
  induction front with
  | nil =>
    rw [nil_append]
    cases splitOnce needle later <;> rfl
  | cons c front ih =>
    have hhead : stripPrefix needle (c :: (front ++ later)) = none :=
      stripPrefix_eq_none_iff.2 (h [] (c :: front) rfl (cons_ne_nil c front))
    have htail := ih fun front₁ t hfront ht => h (c :: front₁) t (by rw [hfront]; rfl) ht
    rw [cons_append, splitOnce, hhead, htail]
    cases splitOnce needle later <;> rfl

/-- The text before the first occurrence has no occurrence that begins in it. -/
theorem not_prefix_of_splitOnce {before rest : Text} (h : splitOnce needle s = some (before, rest))
    {before₁ t : Text} (hbefore : before = before₁ ++ t) (ht : t ≠ []) :
    ¬ needle <+: t ++ (needle ++ rest) := by
  induction s generalizing before before₁ with
  | nil =>
    rw [splitOnce] at h
    split_ifs at h
    obtain ⟨rfl, rfl⟩ := Prod.mk.inj (some.inj h)
    exact absurd (append_eq_nil_iff.1 hbefore.symm).2 ht
  | cons c s ih =>
    rw [splitOnce] at h
    cases hstrip : stripPrefix needle (c :: s) with
    | some rest' =>
      rw [hstrip] at h
      obtain ⟨rfl, rfl⟩ := Prod.mk.inj (some.inj h)
      exact absurd (append_eq_nil_iff.1 hbefore.symm).2 ht
    | none =>
      rw [hstrip] at h
      obtain ⟨⟨before', rest'⟩, hcut, heq⟩ := map_eq_some_iff.1 h
      obtain ⟨rfl, rfl⟩ := Prod.mk.inj heq
      cases before₁ with
      | nil =>
        have hs := splitOnce_eq_some hcut
        rw [stripPrefix_eq_none_iff, hs] at hstrip
        rw [nil_append] at hbefore
        rwa [← hbefore, cons_append, ← append_assoc]
      | cons c' before₁ => exact ih hcut (List.cons.inj hbefore).2

/-- **An occurrence stays the first** when more text arrives. -/
theorem splitOnce_append_of_some {before rest : Text} (h : splitOnce needle s = some (before, rest))
    (hneedle : needle ≠ []) (later : Text) :
    splitOnce needle (s ++ later) = some (before, rest ++ later) := by
  have hs : s ++ later = before ++ (needle ++ (rest ++ later)) := by
    rw [splitOnce_eq_some h]
    simp only [append_assoc]
  have hfound : splitOnce needle (needle ++ (rest ++ later)) = some ([], rest ++ later) := by
    obtain ⟨c, needle', rfl⟩ := exists_cons_of_ne_nil hneedle
    rw [cons_append, splitOnce, ← cons_append, stripPrefix_append]
  rw [hs, splitOnce_append, hfound, map_some, append_nil]
  intro before₁ t hbefore ht hprefix
  refine not_prefix_of_splitOnce h hbefore ht ?_
  -- an occurrence that begins before the first one ends before the later text
  rw [← append_assoc needle, ← append_assoc] at hprefix
  refine prefix_of_prefix_length_le hprefix (prefix_append _ _) ?_
  simp only [length_append]
  omega

theorem not_infix_of_splitOnce_eq_none (h : splitOnce needle s = none) : ¬ needle <:+: s := by
  induction s with
  | nil =>
    rw [splitOnce] at h
    split_ifs at h with hneedle
    exact fun hinfix => hneedle (infix_nil.1 hinfix)
  | cons c s ih =>
    rw [splitOnce] at h
    cases hstrip : stripPrefix needle (c :: s) with
    | some rest =>
      rw [hstrip] at h
      cases h
    | none =>
      rw [hstrip] at h
      intro hinfix
      rcases infix_cons_iff.1 hinfix with hprefix | hinfix
      · exact stripPrefix_eq_none_iff.1 hstrip hprefix
      · exact ih (map_eq_none_iff.1 h) hinfix

/-- **Without an occurrence** the search goes on from the kept end of the text. -/
theorem splitOnce_append_of_none (h : splitOnce needle s = none) (later : Text) :
    splitOnce needle (s ++ later) =
      (splitOnce needle (kept s needle ++ later)).map fun cut => (givenUp s needle ++ cut.1, cut.2) := by
  have hs : s ++ later = givenUp s needle ++ (kept s needle ++ later) := by
    rw [← append_assoc, givenUp_append_kept]
  rw [hs]
  apply splitOnce_append
  intro front t hfront ht hprefix
  have hs' : s = front ++ (t ++ kept s needle) := by
    rw [← append_assoc, ← hfront, givenUp_append_kept]
  rw [← append_assoc] at hprefix
  by_cases hlt : (t ++ kept s needle).length < needle.length
  · -- the occurrence reaches into the later text, so its front was not given up
    exact not_prefix_of_given_up ht hs' hlt
      (prefix_of_prefix_length_le (prefix_append _ _) hprefix (Nat.le_of_lt hlt))
  · -- the occurrence was there before
    have hinside : needle <+: t ++ kept s needle :=
      prefix_of_prefix_length_le hprefix (prefix_append _ _) (Nat.not_lt.1 hlt)
    refine not_infix_of_splitOnce_eq_none h (hinside.isInfix.trans ?_)
    exact ⟨front, [], by rw [append_nil, ← hs']⟩

theorem longestSuffixPrefixLen_mono {s' : Text} (h : s' <:+ s) (needle : Text) :
    longestSuffixPrefixLen s' needle ≤ longestSuffixPrefixLen s needle := by
  have hle : longestSuffixPrefixLen s' needle ≤ min s'.length (needle.length - 1) :=
    longestSuffixPrefixLen_le
  rcases Nat.eq_zero_or_pos needle.length with hempty | hpos
  · omega
  · have hfront := take_prefix (longestSuffixPrefixLen s' needle) needle
    have hkept := length_le_longest ((take_longest_suffix s' needle).trans h) hfront
    rw [length_take_longest] at hkept
    exact hkept (by omega)

/-- **What has to be kept** of the longer text lies in the kept end and the later text. -/
theorem longestSuffixPrefixLen_append (s needle later : Text) :
    longestSuffixPrefixLen (s ++ later) needle =
      longestSuffixPrefixLen (kept s needle ++ later) needle := by
  have hsuffix : kept s needle ++ later <:+ s ++ later := by
    refine ⟨givenUp s needle, ?_⟩
    rw [← append_assoc, givenUp_append_kept]
  refine Nat.le_antisymm ?_ (longestSuffixPrefixLen_mono hsuffix needle)
  -- the kept end of the longer text
  have hend : needle.take (longestSuffixPrefixLen (s ++ later) needle) <:+ s ++ later :=
    take_longest_suffix _ needle
  have hlength : (needle.take (longestSuffixPrefixLen (s ++ later) needle)).length =
      longestSuffixPrefixLen (s ++ later) needle := length_take_longest
  have hle : longestSuffixPrefixLen (s ++ later) needle ≤ min (s ++ later).length (needle.length - 1) :=
    longestSuffixPrefixLen_le
  rcases Nat.eq_zero_or_pos (longestSuffixPrefixLen (s ++ later) needle) with hzero | hpos
  · omega
  by_cases hshort : longestSuffixPrefixLen (s ++ later) needle ≤ (kept s needle ++ later).length
  · have hinside := suffix_of_suffix_length_le hend hsuffix (hlength.trans_le hshort)
    have hfront := take_prefix (longestSuffixPrefixLen (s ++ later) needle) needle
    rw [← hlength]
    exact length_le_longest hinside hfront (by omega)
  · -- it would begin in the part of the text that was given up
    obtain ⟨t, ht⟩ := suffix_of_suffix_length_le hsuffix hend (by omega)
    obtain ⟨front, hfront⟩ := hend
    have htlength := congrArg List.length ht
    rw [length_append] at htlength
    rw [← ht, ← append_assoc, ← append_assoc, append_cancel_right_eq, append_assoc] at hfront
    have hprefix : t ++ kept s needle <+: needle := by
      refine List.IsPrefix.trans ?_ (ht ▸ take_prefix _ needle)
      exact ⟨later, append_assoc t _ later⟩
    have htne : t ≠ [] := by
      rintro rfl
      rw [length_nil] at htlength
      omega
    have hlt : (t ++ kept s needle).length < needle.length := by
      have hsum : (t ++ kept s needle).length + later.length =
          t.length + (kept s needle ++ later).length := by
        simp only [length_append]
        omega
      omega
    exact absurd hprefix (not_prefix_of_given_up htne hfront.symm hlt)

/-- The kept end stands for the text before it. -/
theorem kept_append (s needle later : Text) :
    kept (s ++ later) needle = kept (kept s needle ++ later) needle := by
  rw [kept_eq_take, kept_eq_take (kept s needle ++ later), longestSuffixPrefixLen_append]

/-- What is given up piece by piece is what is given up at once. -/
theorem givenUp_append (s needle later : Text) :
    givenUp (s ++ later) needle = givenUp s needle ++ givenUp (kept s needle ++ later) needle := by
  -- both sides are the longer text without the same end
  rw [← append_left_inj (kept (s ++ later) needle), givenUp_append_kept, kept_append,
    append_assoc, givenUp_append_kept, ← append_assoc, givenUp_append_kept]

end RustStr
