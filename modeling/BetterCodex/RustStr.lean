/-
# Rust string operations on character lists

The part of Rust's `str` API that the modelled crates use, over texts taken as
lists of Unicode scalar values (`List Char`).  Each operation follows the
documented behaviour of its Rust counterpart.

The second half is the small theory of trimming and of line splitting that the
parsers downstream rest on.
-/
import Mathlib

namespace RustStr

open List Option

/-- A Rust string, as the list of its characters. -/
abbrev Text := List Char

/-- `usize::MAX` of a 64-bit machine. -/
def usizeMax : ℕ := 2 ^ 64 - 1

/-! ## Whitespace and trimming -/

/-- The Unicode `White_Space` property (`char::is_whitespace`). -/
def isWhitespace (c : Char) : Bool :=
  let n := c.toNat
  (0x09 ≤ n && n ≤ 0x0d) || n == 0x20 || n == 0x85 || n == 0xa0 || n == 0x1680
    || (0x2000 ≤ n && n ≤ 0x200a) || n == 0x2028 || n == 0x2029 || n == 0x202f
    || n == 0x205f || n == 0x3000

/-- `str::trim_start`. -/
def trimStart (s : Text) : Text := s.dropWhile isWhitespace

/-- `str::trim_end`. -/
def trimEnd (s : Text) : Text := s.rdropWhile isWhitespace

/-- `str::trim`. -/
def trim (s : Text) : Text := trimEnd (trimStart s)

/-- `str::trim_end_matches` for a single character. -/
def trimEndMatches (c : Char) (s : Text) : Text := s.rdropWhile (· == c)

/-! ## Prefixes, suffixes and cuts -/

/-- `str::strip_prefix`. -/
def stripPrefix (p s : Text) : Option Text := s.dropPrefix? p

/-- `str::strip_suffix` for a single character, with the text itself as default:
one trailing `c` is dropped when there is one. -/
def dropTrailing (c : Char) (s : Text) : Text :=
  if s.getLast? = some c then s.dropLast else s

/-- `str::starts_with`. -/
def startsWith (s p : Text) : Bool := p.isPrefixOf s

/-- `str::ends_with`. -/
def endsWith (s p : Text) : Bool := p.isSuffixOf s

/-- `str::split_once`: the text before and after the first occurrence of `p`. -/
def splitOnce (p : Text) : Text → Option (Text × Text)
  | [] => if p = [] then some ([], []) else none
  | c :: cs =>
    match stripPrefix p (c :: cs) with
    | some rest => some ([], rest)
    | none => (splitOnce p cs).map (fun r => (c :: r.1, r.2))

/-- `str::to_ascii_lowercase`. -/
def toAsciiLowercase (s : Text) : Text := s.map Char.toLower

/-! ## Lines -/

/-- The line-ending part of `str::lines` and of the patch reader: one CR at the
end of an LF-terminated line is dropped. -/
def stripCr (s : Text) : Text := dropTrailing '\r' s

/-- The LF-terminated lines of a text, without the LF. -/
def completeLines (s : Text) : List Text := (s.splitOn '\n').dropLast

/-- What follows the last LF of a text. -/
def lastLine (s : Text) : Text := (s.splitOn '\n').getLast (splitOn_ne_nil _ _)

/-- `str::lines`. -/
def lines (s : Text) : List Text :=
  (completeLines s).map stripCr ++ (if lastLine s = [] then [] else [lastLine s])

/-- `[T]::join("\n")`. -/
def joinLines (ls : List Text) : Text := ['\n'].intercalate ls

/-! ## Prefix lemmas -/

variable {p s : Text}

theorem stripPrefix_eq_some_iff {rest : Text} : stripPrefix p s = some rest ↔ s = p ++ rest := by
  unfold stripPrefix
  rw [dropPrefix?_eq_some_iff]
  constructor
  · rintro ⟨p', rfl, hp⟩
    rw [eq_of_beq hp]
  · rintro rfl
    exact ⟨p, rfl, by simp⟩

@[simp] theorem stripPrefix_append (p rest : Text) : stripPrefix p (p ++ rest) = some rest :=
  stripPrefix_eq_some_iff.mpr rfl

theorem ne_of_stripPrefix_eq_none (h : stripPrefix p s = none) : s ≠ p := by
  rintro rfl
  have hself := stripPrefix_append s []
  rw [append_nil, h] at hself
  cases hself

variable {c : Char}

/-- A prefix that starts with another character is no prefix. -/
theorem stripPrefix_cons_of_ne {d : Char} (h : c ≠ d) (p s : Text) :
    stripPrefix (d :: p) (c :: s) = none := by
  rw [eq_none_iff_forall_ne_some]
  intro rest hrest
  have heq := stripPrefix_eq_some_iff.mp hrest
  rw [cons_append] at heq
  exact h (List.cons.inj heq).1

theorem startsWith_eq_isSome (s p : Text) : startsWith s p = (stripPrefix p s).isSome := by
  rw [Bool.eq_iff_iff, isSome_iff_exists]
  refine Iff.trans isPrefixOf_iff_prefix ⟨?_, ?_⟩
  · rintro ⟨rest, rfl⟩
    exact ⟨rest, stripPrefix_append p rest⟩
  · rintro ⟨rest, h⟩
    exact ⟨rest, (stripPrefix_eq_some_iff.mp h).symm⟩

/-- A cut puts the text back together around the separator. -/
theorem splitOnce_eq_some {before rest : Text} (h : splitOnce p s = some (before, rest)) :
    s = before ++ p ++ rest := by
  induction s generalizing before with
  | nil =>
    simp only [splitOnce] at h
    split_ifs at h with hp
    obtain ⟨rfl, rfl⟩ := Prod.mk.inj (some.inj h)
    simp [hp]
  | cons c s ih =>
    simp only [splitOnce] at h
    split at h
    · rename_i hstrip
      obtain ⟨rfl, rfl⟩ := Prod.mk.inj (some.inj h)
      exact stripPrefix_eq_some_iff.1 hstrip
    · obtain ⟨⟨before', rest'⟩, hcut, heq⟩ := map_eq_some_iff.1 h
      obtain ⟨rfl, rfl⟩ := Prod.mk.inj heq
      rw [ih hcut]
      rfl

theorem splitOnce_char {before : Text} (h : c ∉ before) (rest : Text) :
    splitOnce [c] (before ++ c :: rest) = some (before, rest) := by
  induction before with
  | nil =>
    have hstrip : stripPrefix [c] (c :: rest) = some rest := stripPrefix_append [c] rest
    simp [splitOnce, hstrip]
  | cons d before ih =>
    have hne : d ≠ c := fun heq => h (by simp [heq])
    have hcut := ih fun hmem => h (by simp [hmem])
    simp [splitOnce, stripPrefix_cons_of_ne hne, hcut]

theorem splitOnce_char_eq_none (h : c ∉ s) : splitOnce [c] s = none := by
  rw [eq_none_iff_forall_ne_some]
  rintro ⟨before, rest⟩ hcut
  refine h ?_
  rw [splitOnce_eq_some hcut]
  simp

/-! ## ASCII case -/

/-- Lowering changes capital ASCII letters only. -/
theorem toLower_cases (c : Char) :
    c.toLower = c ∨ ('A' ≤ c ∧ c ≤ 'Z') ∧ 'a' ≤ c.toLower ∧ c.toLower ≤ 'z' := by
  by_cases hc : 'A'.val ≤ c.val ∧ c.val ≤ 'Z'.val
  · have hall : ∀ n : Fin 128, 'A' ≤ Char.ofNat n ∧ Char.ofNat n ≤ 'Z' →
        'a' ≤ (Char.ofNat n).toLower ∧ (Char.ofNat n).toLower ≤ 'z' := by decide
    have hlt : c.toNat < 128 := by
      have hle : c.toNat ≤ 'Z'.toNat := hc.2
      rw [show 'Z'.toNat = 90 from rfl] at hle
      omega
    have hletter := hall ⟨c.toNat, hlt⟩
    rw [Char.ofNat_toNat] at hletter
    exact Or.inr ⟨hc, hletter hc⟩
  · exact Or.inl (dif_neg hc)

@[simp] theorem toLower_toLower (c : Char) : c.toLower.toLower = c.toLower := by
  rcases toLower_cases c with h | ⟨-, hlower, -⟩
  · rw [h, h]
  · rcases toLower_cases c.toLower with h | ⟨⟨-, hle⟩, -⟩
    · exact h
    · exact absurd (hlower.trans hle) (by decide)

@[simp] theorem toAsciiLowercase_idem (s : Text) :
    toAsciiLowercase (toAsciiLowercase s) = toAsciiLowercase s := by
  simp [toAsciiLowercase]

/-- A character that lower-casing neither changes nor produces. -/
def Caseless (c : Char) : Prop := ∀ d : Char, d.toLower = c ↔ d = c

theorem caseless_of_not_letter (hlower : ¬ ('a' ≤ c ∧ c ≤ 'z')) (hupper : ¬ ('A' ≤ c ∧ c ≤ 'Z')) :
    Caseless c := by
  intro d
  rcases toLower_cases d with h | ⟨hd, hd'⟩
  · rw [h]
  · constructor
    · rintro rfl
      exact absurd hd' hlower
    · rintro rfl
      exact absurd hd hupper

theorem isPrefix_of_isPrefix_lowercase (hp : ∀ c ∈ p, Caseless c) (h : p <+: toAsciiLowercase s) :
    p <+: s := by
  induction p generalizing s with
  | nil => exact nil_prefix
  | cons c p ih =>
    cases s with
    | nil => simp [toAsciiLowercase] at h
    | cons d s =>
      obtain ⟨hcd, hrest⟩ := cons_prefix_cons.1 h
      obtain rfl : d = c := (hp c (by simp) d).1 hcd.symm
      exact cons_prefix_cons.2 ⟨rfl, ih (fun e he => hp e (by simp [he])) hrest⟩

/-- Stripping letters without case commutes with lowering. -/
theorem stripPrefix_toAsciiLowercase (hp : ∀ c ∈ p, Caseless c) (s : Text) :
    stripPrefix p (toAsciiLowercase s) = (stripPrefix p s).map toAsciiLowercase := by
  have hself : toAsciiLowercase p = p := by
    rw [toAsciiLowercase]
    conv_rhs => rw [← map_id p]
    exact map_congr_left fun c hc => (hp c hc c).2 rfl
  cases hs : stripPrefix p s with
  | some rest =>
    rw [stripPrefix_eq_some_iff.1 hs, toAsciiLowercase, map_append]
    change stripPrefix p (toAsciiLowercase p ++ toAsciiLowercase rest) = _
    rw [hself, stripPrefix_append]
    rfl
  | none =>
    rw [map_none, eq_none_iff_forall_ne_some]
    intro rest hrest
    obtain ⟨rest', hs'⟩ := isPrefix_of_isPrefix_lowercase hp
      ⟨rest, (stripPrefix_eq_some_iff.1 hrest).symm⟩
    rw [stripPrefix_eq_some_iff.2 hs'.symm] at hs
    cases hs

/-- Splitting at letters without case commutes with lowering. -/
theorem splitOnce_toAsciiLowercase (hp : ∀ c ∈ p, Caseless c) (s : Text) :
    splitOnce p (toAsciiLowercase s) =
      (splitOnce p s).map (Prod.map toAsciiLowercase toAsciiLowercase) := by
  induction s with
  | nil =>
    simp only [toAsciiLowercase, map_nil, splitOnce]
    split_ifs <;> rfl
  | cons c s ih =>
    have hstrip := stripPrefix_toAsciiLowercase hp (c :: s)
    change splitOnce p (c.toLower :: toAsciiLowercase s) = _
    change stripPrefix p (c.toLower :: toAsciiLowercase s) = _ at hstrip
    rw [splitOnce, splitOnce, hstrip, ih]
    cases stripPrefix p (c :: s) with
    | some rest => rfl
    | none => cases splitOnce p s <;> rfl

/-! ## Trimming lemmas -/

theorem trimEnd_isPrefix (s : Text) : trimEnd s <+: s := rdropWhile_prefix _ _

theorem trim_subset (s : Text) : ∀ c ∈ trim s, c ∈ s := by
  intro c hc
  have hstart : c ∈ trimStart s := (trimEnd_isPrefix _).subset hc
  exact (dropWhile_suffix _).subset hstart

theorem isWhitespace_toLower (c : Char) : isWhitespace c.toLower = isWhitespace c := by
  rcases toLower_cases c with h | ⟨hupper, hlower⟩
  · rw [h]
  · have hletter : ∀ n : Fin 128, 'A' ≤ Char.ofNat n → isWhitespace (Char.ofNat n) = false := by
      decide
    have hblank : ∀ d : Char, 'A' ≤ d → d ≤ 'z' → isWhitespace d = false := by
      intro d hd hd'
      have hlt : d.toNat < 128 := by
        have hle : d.toNat ≤ 'z'.toNat := hd'
        rw [show 'z'.toNat = 122 from rfl] at hle
        omega
      have := hletter ⟨d.toNat, hlt⟩
      rw [Char.ofNat_toNat] at this
      exact this hd
    rw [hblank c hupper.1 (hupper.2.trans (by decide)),
      hblank c.toLower (le_trans (by decide) hlower.1) hlower.2]

theorem trim_toAsciiLowercase (s : Text) :
    trim (toAsciiLowercase s) = toAsciiLowercase (trim s) := by
  have hblank : isWhitespace ∘ Char.toLower = isWhitespace := funext isWhitespace_toLower
  unfold trim trimEnd trimStart toAsciiLowercase
  rw [dropWhile_map, hblank]
  unfold List.rdropWhile
  rw [← map_reverse, dropWhile_map, hblank, map_reverse]

theorem trim_eq_self_of_forall (h : ∀ c ∈ s, isWhitespace c = false) : trim s = s := by
  have hstart : trimStart s = s := by
    unfold trimStart
    rw [dropWhile_eq_self_iff]
    intro hlen
    simp [h _ (getElem_mem hlen)]
  have hend : trimEnd s = s := by
    unfold trimEnd
    rw [rdropWhile_eq_self_iff]
    intro hne
    simp [h _ (getLast_mem hne)]
  rw [trim, hstart, hend]

theorem trimEnd_concat_whitespace (s : Text) (hc : isWhitespace c = true) :
    trimEnd (s ++ [c]) = trimEnd s := by
  unfold trimEnd
  rw [rdropWhile_concat_pos _ _ _ hc]

theorem trimStart_append_of_not_all (t : Text) (h : ∃ c ∈ s, isWhitespace c = false) :
    trimStart (s ++ t) = trimStart s ++ t := by
  unfold trimStart
  induction s with
  | nil => simp at h
  | cons a s ih =>
    by_cases ha : isWhitespace a = true
    · have hs : ∃ c ∈ s, isWhitespace c = false := by
        obtain ⟨c, hc, hcf⟩ := h
        rcases mem_cons.mp hc with rfl | hc
        · simp [ha] at hcf
        · exact ⟨c, hc, hcf⟩
      simp [ha, ih hs]
    · simp [ha]

/-- A blank at the end is trimmed. -/
theorem trim_concat_whitespace (s : Text) (hc : isWhitespace c = true) :
    trim (s ++ [c]) = trim s := by
  unfold trim
  by_cases h : ∃ a ∈ s, isWhitespace a = false
  · rw [trimStart_append_of_not_all _ h, trimEnd_concat_whitespace _ hc]
  · push Not at h
    have hall : ∀ a ∈ s, isWhitespace a = true := fun a ha => by simpa using h a ha
    have h1 : trimStart s = [] := by
      unfold trimStart
      exact dropWhile_eq_nil_iff.mpr hall
    have h2 : trimStart (s ++ [c]) = [] := by
      unfold trimStart
      refine dropWhile_eq_nil_iff.mpr ?_
      intro a ha
      rcases mem_append.mp ha with ha | ha
      · exact hall a ha
      · rw [mem_singleton.mp ha]; exact hc
    rw [h1, h2]

theorem trimEnd_cons (hc : isWhitespace c = false) (s : Text) :
    trimEnd (c :: s) = c :: trimEnd s := by
  unfold trimEnd List.rdropWhile
  rw [reverse_cons, dropWhile_append]
  by_cases hall : (s.reverse.dropWhile isWhitespace).isEmpty
  · rw [if_pos hall, dropWhile_cons_of_neg (by simp [hc]), isEmpty_iff.mp hall]
    rfl
  · rw [if_neg hall, reverse_append]
    rfl

theorem trimStart_cons (hc : isWhitespace c = false) (s : Text) : trimStart (c :: s) = c :: s :=
  dropWhile_cons_of_neg (by simp [hc])

theorem trim_of_trimEnd_eq_cons {t : Text} (hc : isWhitespace c = false) (h : trimEnd s = c :: t) :
    trim s = c :: t := by
  obtain ⟨rest, hrest⟩ := trimEnd_isPrefix s
  rw [h, cons_append] at hrest
  unfold trim
  rw [← hrest, trimStart_cons hc, hrest, h]

theorem trim_ne_nil_of_mem (hc : c ∈ s) (hw : isWhitespace c = false) : trim s ≠ [] := by
  intro h
  unfold trim trimEnd trimStart at h
  rw [rdropWhile_eq_nil_iff] at h
  have hsplit := takeWhile_append_dropWhile (p := isWhitespace) (l := s)
  rw [← hsplit, mem_append] at hc
  rcases hc with hc | hc
  · exact absurd (mem_takeWhile_imp hc) (by simp [hw])
  · exact absurd (h c hc) (by simp [hw])

theorem trim_eq_self {d : Char} (hfirst : s.head? = some c) (hlast : s.getLast? = some d)
    (hc : isWhitespace c = false) (hd : isWhitespace d = false) : trim s = s := by
  obtain ⟨t, rfl⟩ := head?_eq_some_iff.mp hfirst
  unfold trim trimEnd
  rw [trimStart_cons hc, ← dropLast_append_getLast? d hlast,
    rdropWhile_concat_neg _ _ _ (by simp [hd])]

theorem exists_concat_of_trim_eq (h : trim s = s) (hne : s ≠ []) :
    ∃ t c, s = t ++ [c] ∧ isWhitespace c = false := by
  refine ⟨s.dropLast, s.getLast hne, (dropLast_concat_getLast hne).symm, ?_⟩
  have hs : (trimStart s).rdropWhile isWhitespace = s := h
  have hne' : (trimStart s).rdropWhile isWhitespace ≠ [] := by rw [hs]; exact hne
  have hlast := rdropWhile_last_not isWhitespace (trimStart s) hne'
  simpa [hs] using hlast

/-! ## Line lemmas -/

theorem splitOn_eq_lines (s : Text) : s.splitOn '\n' = completeLines s ++ [lastLine s] :=
  (dropLast_concat_getLast (splitOn_ne_nil _ _)).symm

theorem completeLines_of_not_mem (h : '\n' ∉ s) : completeLines s = [] := by
  unfold completeLines
  rw [splitOn_eq_singleton h]
  rfl

theorem lastLine_of_not_mem (h : '\n' ∉ s) : lastLine s = s := by
  unfold lastLine
  simp only [splitOn_eq_singleton h]
  rfl

theorem lines_append_cons (h : '\n' ∉ s) (t : Text) :
    completeLines (s ++ '\n' :: t) = s :: completeLines t
      ∧ lastLine (s ++ '\n' :: t) = lastLine t := by
  have hsplit := splitOn_append_cons_self_of_not_mem h t
  constructor
  · unfold completeLines
    rw [hsplit, dropLast_cons_of_ne_nil (splitOn_ne_nil _ _)]
  · unfold lastLine
    simp only [hsplit]
    exact getLast_cons (splitOn_ne_nil _ _)

/-- Induction over the lines of a text. -/
theorem line_induction {P : Text → Prop} (hlast : ∀ s, '\n' ∉ s → P s)
    (hline : ∀ s t, '\n' ∉ s → P t → P (s ++ '\n' :: t)) (s : Text) : P s := by
  by_cases h : '\n' ∈ s
  · obtain ⟨a, b, rfl, ha⟩ := eq_append_cons_of_mem h
    exact hline a b ha (line_induction hlast hline b)
  · exact hlast s h
  termination_by s.length

theorem lastLine_concat (s : Text) (hc : c ≠ '\n') : lastLine (s ++ [c]) = lastLine s ++ [c] := by
  induction s using line_induction with
  | hlast s h =>
    rw [lastLine_of_not_mem h, lastLine_of_not_mem (by simp [h, Ne.symm hc])]
  | hline s t h ih =>
    rw [append_assoc, cons_append, (lines_append_cons h _).2, (lines_append_cons h t).2, ih]

theorem trim_lastLine_ne_nil (h : trim s = s) (hne : s ≠ []) : trim (lastLine s) ≠ [] := by
  obtain ⟨t, c, rfl, hc⟩ := exists_concat_of_trim_eq h hne
  have hnl : c ≠ '\n' := by
    rintro rfl
    exact absurd hc (by decide)
  rw [lastLine_concat t hnl]
  exact trim_ne_nil_of_mem (mem_append_right _ (mem_singleton_self c)) hc

/-- A text is its terminated lines followed by its last line. -/
theorem flatMap_completeLines (s : Text) :
    (completeLines s).flatMap (· ++ ['\n']) ++ lastLine s = s := by
  induction s using line_induction with
  | hlast s h => rw [completeLines_of_not_mem h, lastLine_of_not_mem h]; rfl
  | hline s t h ih =>
    rw [(lines_append_cons h t).1, (lines_append_cons h t).2, flatMap_cons, append_assoc, ih]
    simp

theorem not_mem_of_mem_splitOn {l : Text} (h : l ∈ s.splitOn '\n') : '\n' ∉ l := by
  induction s generalizing l with
  | nil => simp_all
  | cons c s ih =>
    rw [splitOn_cons_eq_if_modifyHead] at h
    split_ifs at h with hc
    · rcases mem_cons.mp h with rfl | h
      · simp
      · exact ih h
    · obtain ⟨x, xs, hx⟩ := exists_cons_of_ne_nil (splitOn_ne_nil '\n' s)
      rw [hx] at h ih
      rcases mem_cons.mp h with rfl | h
      · have hx' := ih (mem_cons_self ..)
        rw [mem_cons, not_or]
        exact ⟨fun h => hc (by simp [← h]), hx'⟩
      · exact ih (mem_cons_of_mem _ h)

/-- `stripCr` either keeps a line or drops one CR. -/
theorem stripCr_cases (s : Text) : stripCr s = s ∨ s = stripCr s ++ ['\r'] := by
  unfold stripCr dropTrailing
  by_cases h : s.getLast? = some '\r'
  · right
    rw [if_pos h]
    exact (dropLast_append_getLast? _ h).symm
  · left
    rw [if_neg h]

@[simp] theorem stripCr_concat_cr (s : Text) : stripCr (s ++ ['\r']) = s := by
  simp [stripCr, dropTrailing]

theorem stripCr_isPrefix (s : Text) : stripCr s <+: s := by
  rcases stripCr_cases s with h | h
  · rw [h]
  · exact ⟨['\r'], h.symm⟩

/-- Joined lines without LF are read back by splitting. -/
theorem joinLines_concat {ls : List Text} {last : Text} (hls : ∀ l ∈ ls, '\n' ∉ l)
    (hlast : '\n' ∉ last) :
    completeLines (joinLines (ls ++ [last])) = ls ∧ lastLine (joinLines (ls ++ [last])) = last := by
  have hsplit : (joinLines (ls ++ [last])).splitOn '\n' = ls ++ [last] := by
    refine splitOn_intercalate _ ?_ (by simp)
    intro l hl
    rcases mem_append.mp hl with hl | hl
    · exact hls l hl
    · rw [mem_singleton.mp hl]; exact hlast
  constructor
  · unfold completeLines
    rw [hsplit, dropLast_concat]
  · unfold lastLine
    simp only [hsplit]
    exact getLast_concat

theorem eq_lastLine_of_completeLines_eq_nil (h : completeLines s = []) : lastLine s = s := by
  have hjoin : ['\n'].intercalate (s.splitOn '\n') = s := intercalate_splitOn '\n'
  rw [splitOn_eq_lines, h, nil_append] at hjoin
  simpa using hjoin

theorem trim_stripCr (s : Text) : trim (stripCr s) = trim s := by
  rcases stripCr_cases s with h | h
  · rw [h]
  · conv_rhs => rw [h]
    exact (trim_concat_whitespace _ (by decide)).symm

theorem not_mem_completeLines {l : Text} (h : l ∈ completeLines s) : '\n' ∉ l :=
  not_mem_of_mem_splitOn (mem_of_mem_dropLast h)

theorem not_mem_lastLine (s : Text) : '\n' ∉ lastLine s :=
  not_mem_of_mem_splitOn (getLast_mem _)

/-! ## Lengths in bytes -/

/-- The length of a text in UTF-8. -/
def utf8Len (s : Text) : ℕ := (s.map Char.utf8Size).sum

/-- `s.truncate(s.floor_char_boundary(n))`. -/
def floorBytes : ℕ → Text → Text
  | _, [] => []
  | n, c :: s => if c.utf8Size ≤ n then c :: floorBytes (n - c.utf8Size) s else []

@[simp] theorem utf8Len_cons (c : Char) (s : Text) : utf8Len (c :: s) = c.utf8Size + utf8Len s := by
  simp [utf8Len]

theorem length_le_utf8Len (s : Text) : s.length ≤ utf8Len s := by
  induction s with
  | nil => exact le_rfl
  | cons c s ih =>
    have hpos : 0 < c.utf8Size := Char.utf8Size_pos c
    rw [utf8Len_cons, length_cons]
    omega

theorem floorBytes_of_le {n : ℕ} {s : Text} (h : utf8Len s ≤ n) : floorBytes n s = s := by
  induction s generalizing n with
  | nil => rfl
  | cons c s ih =>
    rw [utf8Len_cons] at h
    rw [floorBytes, if_pos (by omega), ih (by omega)]

theorem utf8Len_floorBytes_le (n : ℕ) (s : Text) : utf8Len (floorBytes n s) ≤ n := by
  induction s generalizing n with
  | nil => exact Nat.zero_le n
  | cons c s ih =>
    rw [floorBytes]
    split_ifs with h
    · rw [utf8Len_cons]
      have := ih (n - c.utf8Size)
      omega
    · exact Nat.zero_le n

theorem floorBytes_floorBytes (n : ℕ) (s : Text) : floorBytes n (floorBytes n s) = floorBytes n s :=
  floorBytes_of_le (utf8Len_floorBytes_le n s)

theorem floorBytes_replicate {c : Char} (hc : c.utf8Size = 1) (n m : ℕ) :
    floorBytes n (replicate m c) = replicate (min n m) c := by
  induction m generalizing n with
  | zero => simp [floorBytes]
  | succ m ih =>
    rw [replicate_succ, floorBytes, hc]
    cases n with
    | zero => simp
    | succ n =>
      rw [if_pos (by omega), Nat.add_sub_cancel, ih, Nat.add_min_add_right, replicate_succ]

/-! ## Results -/

theorem bind_eq_ok {ε α β : Type} {x : Except ε α} {f : α → Except ε β} {b : β} :
    x >>= f = .ok b ↔ ∃ a, x = .ok a ∧ f a = .ok b := by
  cases x with
  | error e => exact ⟨nofun, fun ⟨_, ha, _⟩ => nomatch ha⟩
  | ok a =>
    refine ⟨fun h => ⟨a, rfl, h⟩, ?_⟩
    rintro ⟨_, ha, hb⟩
    obtain rfl := Except.ok.inj ha
    exact hb

end RustStr
