/-
# Base64

Four digits of six bits stand for three bytes.  A coding has a letter for each digit; its last
group may be shorter, and is padded if the coding has a padding.
-/
import Mathlib

namespace Base64

open List

/-! ## Digits -/

/-- The digits of some bytes; the unused bits of a last group are zero. -/
def sextets : List UInt8 → List ℕ
  | [] => []
  | [a] => [a.toNat / 4, a.toNat % 4 * 16]
  | [a, b] => [a.toNat / 4, a.toNat % 4 * 16 + b.toNat / 16, b.toNat % 16 * 4]
  | a :: b :: c :: rest =>
    a.toNat / 4 :: (a.toNat % 4 * 16 + b.toNat / 16) :: (b.toNat % 16 * 4 + c.toNat / 64) ::
      c.toNat % 64 :: sextets rest

/-- The bytes of some digits, if they are a full number of bytes. -/
def octets : List ℕ → Option (List UInt8)
  | [] => some []
  | [x, y] => if y % 16 = 0 then some [.ofNat (x * 4 + y / 16)] else none
  | [x, y, z] =>
    if z % 4 = 0 then some [.ofNat (x * 4 + y / 16), .ofNat (y % 16 * 16 + z / 4)] else none
  | x :: y :: z :: w :: rest =>
    (octets rest).map fun bytes =>
      .ofNat (x * 4 + y / 16) :: .ofNat (y % 16 * 16 + z / 4) :: .ofNat (z % 4 * 64 + w) :: bytes
  | _ => none

/-- Digits are read back as the bytes they came from. -/
theorem octets_sextets (bytes : List UInt8) : octets (sextets bytes) = some bytes := by
  have hbyte : ∀ (b : UInt8) {n : ℕ}, n = b.toNat → UInt8.ofNat n = b := by
    rintro b _ rfl
    exact UInt8.ofNat_toNat
  induction bytes using sextets.induct with
  | case1 => rfl
  | case2 a => rw [sextets, octets, if_pos (by omega), hbyte a (by omega)]
  | case3 a b =>
    have hb := b.toNat_lt
    rw [sextets, octets, if_pos (by omega), hbyte a (by omega), hbyte b (by omega)]
  | case4 a b c rest ih =>
    have hb := b.toNat_lt
    have hc := c.toNat_lt
    rw [sextets, octets, ih, Option.map_some, hbyte a (by omega), hbyte b (by omega),
      hbyte c (by omega)]

theorem sextets_lt (bytes : List UInt8) : ∀ n ∈ sextets bytes, n < 64 := by
  intro n hn
  induction bytes using sextets.induct with
  | case1 => cases hn
  | case2 a =>
    have ha := a.toNat_lt
    simp only [sextets, mem_cons, not_mem_nil, or_false] at hn
    omega
  | case3 a b =>
    have ha := a.toNat_lt
    have hb := b.toNat_lt
    simp only [sextets, mem_cons, not_mem_nil, or_false] at hn
    omega
  | case4 a b c rest ih =>
    have ha := a.toNat_lt
    have hb := b.toNat_lt
    have hc := c.toNat_lt
    simp only [sextets, mem_cons, ← or_assoc] at hn
    rcases hn with hn | hn
    · omega
    · exact ih hn

theorem length_sextets (bytes : List UInt8) :
    (sextets bytes).length + (3 - bytes.length % 3) % 3 = 4 * ((bytes.length + 2) / 3) := by
  induction bytes using sextets.induct with
  | case1 => rfl
  | case2 a => simp [sextets]
  | case3 a b => simp [sextets]
  | case4 a b c rest ih =>
    simp only [sextets, length_cons]
    omega

/-- Four digits stand for at most three bytes. -/
theorem length_octets {digits : List ℕ} {bytes : List UInt8} (h : octets digits = some bytes) :
    4 * bytes.length ≤ 3 * digits.length := by
  induction digits using octets.induct generalizing bytes with
  | case1 =>
    rw [← Option.some.inj h]
    exact le_rfl
  | case2 x y hy =>
    rw [octets, if_pos hy] at h
    rw [← Option.some.inj h]
    exact Nat.le_of_ble_eq_true rfl
  | case3 x y hy => rw [octets, if_neg hy] at h; cases h
  | case4 x y z hz =>
    rw [octets, if_pos hz] at h
    rw [← Option.some.inj h]
    exact Nat.le_of_ble_eq_true rfl
  | case5 x y z hz => rw [octets, if_neg hz] at h; cases h
  | case6 x y z w rest ih =>
    obtain ⟨tail, htail, rfl⟩ := Option.map_eq_some_iff.1 h
    have hrest := ih htail
    simp only [length_cons]
    omega
  | case7 => simp_all [octets]

/-! ## Codings -/

/-- The letters of a coding, each at its value, and the padding. -/
structure Alphabet (χ : Type) where
  letters : List χ
  pad : Option χ
  length_letters : letters.length = 64
  nodup : letters.Nodup
  pad_not_mem : ∀ p ∈ pad, p ∉ letters

/-- An upper bound of the number of bytes of a text of this length. -/
def decodedLenEstimate (encodedLen : ℕ) : ℕ :=
  (encodedLen / 4 + if 0 < encodedLen % 4 then 1 else 0) * 3

theorem decodedLenEstimate_mono {n m : ℕ} (h : n ≤ m) :
    decodedLenEstimate n ≤ decodedLenEstimate m := by
  rw [decodedLenEstimate, decodedLenEstimate]
  split_ifs <;> omega

namespace Alphabet

variable {χ : Type} (A : Alphabet χ)

/-- The letter of a digit. -/
def letter (n : ℕ) : χ :=
  A.letters.get ⟨n % 64, A.length_letters.symm ▸ Nat.mod_lt n (by decide)⟩

/-- The text of some bytes. -/
def encode (bytes : List UInt8) : List χ :=
  (sextets bytes).map A.letter ++ A.pad.toList.flatMap (replicate ((3 - bytes.length % 3) % 3))

variable {A} {bytes : List UInt8}

theorem letter_mem (n : ℕ) : A.letter n ∈ A.letters := get_mem _ _

theorem length_encode {p : χ} (hpad : A.pad = some p) (bytes : List UInt8) :
    (A.encode bytes).length = 4 * ((bytes.length + 2) / 3) := by
  rw [encode, hpad, ← length_sextets]
  simp

theorem mem_encode {c : χ} (hc : c ∈ A.encode bytes) : A.pad = some c ∨ c ∈ A.letters := by
  rcases mem_append.1 hc with hc | hc
  · obtain ⟨n, -, rfl⟩ := mem_map.1 hc
    exact .inr (letter_mem n)
  · obtain ⟨p, hp, hc⟩ := mem_flatMap.1 hc
    rw [eq_of_mem_replicate hc]
    exact .inl (Option.mem_toList.1 hp)

theorem encode_ne_nil (h : bytes ≠ []) : A.encode bytes ≠ [] := by
  intro hnil
  have hback := octets_sextets bytes
  rw [map_eq_nil_iff.1 (append_eq_nil_iff.1 hnil).1] at hback
  exact h (Option.some.inj hback).symm

variable [DecidableEq χ]

variable (A) in
/-- A text without its padding, which fills the last group. -/
def unpad (s : List χ) : Option (List χ) :=
  match A.pad with
  | none => some s
  | some p =>
    let body := s.rdropWhile (· = p)
    if s.length % 4 = 0 ∧ s.length ≤ body.length + 2 then some body else none

variable (A) in
/-- The bytes of a text, if it is well formed. -/
def decode (s : List χ) : Option (List UInt8) :=
  (A.unpad s).bind fun body =>
    if ∀ c ∈ body, c ∈ A.letters then octets (body.map A.letters.idxOf) else none

/-- The padding that is written is the one that is taken off. -/
theorem unpad_encode (bytes : List UInt8) :
    A.unpad (A.encode bytes) = some ((sextets bytes).map A.letter) := by
  cases hpad : A.pad with
  | none => simp [unpad, encode, hpad]
  | some p =>
    have hlength := length_encode hpad bytes
    have hbody : (A.encode bytes).rdropWhile (· = p) = (sextets bytes).map A.letter := by
      rw [encode, hpad, Option.toList_some, flatMap_singleton, rdropWhile, reverse_append,
        dropWhile_append_of_pos (by simp), ← rdropWhile, rdropWhile_eq_self_iff]
      intro hne heq
      obtain ⟨n, -, hn⟩ := mem_map.1 (getLast_mem hne)
      exact A.pad_not_mem p hpad (of_decide_eq_true heq ▸ hn ▸ letter_mem n)
    have hdigits := length_sextets bytes
    simp only [unpad, hpad, hbody]
    rw [if_pos]
    rw [hlength, length_map]
    omega

theorem idxOf_letter {n : ℕ} (h : n < 64) : A.letters.idxOf (A.letter n) = n := by
  rw [letter, get_eq_getElem, A.nodup.idxOf_getElem]
  exact Nat.mod_eq_of_lt h

/-- **What is encoded is read back.** -/
theorem decode_encode (bytes : List UInt8) : A.decode (A.encode bytes) = some bytes := by
  have hdigits : ((sextets bytes).map A.letter).map A.letters.idxOf = sextets bytes := by
    rw [map_map]
    exact (map_congr_left fun n hn => idxOf_letter (sextets_lt bytes n hn)).trans (map_id' _)
  rw [decode, unpad_encode, Option.bind_some, if_pos, hdigits, octets_sextets]
  exact forall_mem_map.2 fun n _ => letter_mem n

/-- An upper bound that is known before decoding. -/
theorem length_decode_le {s : List χ} (h : A.decode s = some bytes) :
    bytes.length ≤ decodedLenEstimate s.length := by
  obtain ⟨body, hbody, h⟩ := Option.bind_eq_some_iff.1 h
  have hle : body.length ≤ s.length := by
    rw [unpad] at hbody
    split at hbody
    · rw [Option.some.inj hbody]
    · rename_i p _
      have hbefore := rdropWhile_prefix (· = p) s
      dsimp only at hbody
      split_ifs at hbody
      rw [← Option.some.inj hbody]
      exact hbefore.length_le
  split_ifs at h
  have hbytes := length_octets h
  rw [length_map] at hbytes
  rw [decodedLenEstimate]
  split_ifs <;> omega

end Alphabet

/-- The codes of the upper-case letters, the lower-case letters and the decimal digits. -/
def alphanumeric : List ℕ := range' 65 26 ++ range' 97 26 ++ range' 48 10

/-- The standard alphabet, with `+`, `/` and padding. -/
def standard : Alphabet Char where
  letters := (alphanumeric ++ [43, 47]).map Char.ofNat
  pad := some '='
  length_letters := rfl
  nodup := by decide +kernel
  pad_not_mem := fun _ hp => Option.some.inj hp ▸ by decide +kernel

example : standard.decode "aGk=".toList = some [104, 105] := by decide +kernel

example : standard.decode "aGl=".toList = none := by decide +kernel

/-- The URL-safe alphabet, with `-` and `_` and without padding, as bytes. -/
def urlSafe : Alphabet UInt8 where
  letters := (alphanumeric ++ [45, 95]).map UInt8.ofNat
  pad := none
  length_letters := rfl
  nodup := by decide +kernel
  pad_not_mem := by simp

end Base64
