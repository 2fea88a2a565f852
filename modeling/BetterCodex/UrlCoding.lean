/-
# Percent-encoding

A coding of bytes as the ASCII bytes of a URL.
-/
import BetterCodex.Utf8

namespace UrlCoding

open Utf8 List

/-! ## Percent-encoding -/

/-- The value of a hexadecimal digit. -/
def hexValue (b : UInt8) : Option UInt8 :=
  if 0x30 ≤ b ∧ b ≤ 0x39 then some (b - 0x30)
  else if 0x41 ≤ b ∧ b ≤ 0x46 then some (b - 0x37)
  else if 0x61 ≤ b ∧ b ≤ 0x66 then some (b - 0x57)
  else none

/-- The hexadecimal digit of a value below sixteen. -/
def hexDigit (n : UInt8) : UInt8 := if n < 10 then 0x30 + n else 0x37 + n

/-- The byte that two digits stand for. -/
def escaped (b c : UInt8) : Option UInt8 := do
  let high ← hexValue b
  let low ← hexValue c
  return 16 * high + low

/-- Percent-decoding. -/
def decode : List UInt8 → List UInt8
  | [] => []
  | [a] => [a]
  | [a, b] => [a, b]
  | a :: b :: c :: rest =>
    if a = 0x25 then
      match escaped b c with
      | some byte => byte :: decode rest
      | none => a :: decode (b :: c :: rest)
    else a :: decode (b :: c :: rest)

/-- Percent-encoding of the bytes that are not kept. -/
def encode (keeps : UInt8 → Bool) (bytes : List UInt8) : List UInt8 :=
  bytes.flatMap fun b => if keeps b then [b] else [0x25, hexDigit (b / 16), hexDigit (b % 16)]

theorem decode_cons_of_ne {a : UInt8} (h : a ≠ 0x25) (s : List UInt8) :
    decode (a :: s) = a :: decode s := by
  match s with
  | [] => rfl
  | [_] => rfl
  | b :: c :: rest => rw [decode, if_neg h]

theorem decode_escape {b c byte : UInt8} (h : escaped b c = some byte) (rest : List UInt8) :
    decode (0x25 :: b :: c :: rest) = byte :: decode rest := by
  rw [decode, if_pos rfl, h]

theorem decode_not_escape {b c : UInt8} (h : escaped b c = none) (rest : List UInt8) :
    decode (0x25 :: b :: c :: rest) = 0x25 :: decode (b :: c :: rest) := by
  rw [decode, if_pos rfl, h]

theorem forall_byte {p : UInt8 → Prop} (h : ∀ m n : Fin 16, p (.ofNat (16 * m + n))) (b : UInt8) :
    p b := by
  have hb := h ⟨b.toNat / 16, by have := b.toNat_lt; omega⟩ ⟨b.toNat % 16, by omega⟩
  rwa [Nat.div_add_mod, UInt8.ofNat_toNat] at hb

variable (b : UInt8)

theorem escaped_hexDigit : escaped (hexDigit (b / 16)) (hexDigit (b % 16)) = some b := by
  revert b
  exact forall_byte (by decide)

/-- **What is encoded is read back**, if the escape character itself is encoded. -/
theorem decode_encode {keeps : UInt8 → Bool} (hkeeps : keeps 0x25 = false) (bytes : List UInt8) :
    decode (encode keeps bytes) = bytes := by
  induction bytes with
  | nil => rfl
  | cons b bytes ih =>
    rw [encode, flatMap_cons, ← encode]
    cases hb : keeps b with
    | true =>
      have hne : b ≠ 0x25 := by
        rintro rfl
        rw [hkeeps] at hb
        exact Bool.false_ne_true hb
      rw [if_pos rfl, singleton_append, decode_cons_of_ne hne, ih]
    | false =>
      rw [if_neg Bool.false_ne_true]
      show decode (0x25 :: _ :: _ :: encode keeps bytes) = _
      rw [decode_escape (escaped_hexDigit b), ih]

theorem hexDigit_ne_slash :
    (0x2f : UInt8) ≠ hexDigit (b / 16) ∧ (0x2f : UInt8) ≠ hexDigit (b % 16) := by
  revert b
  exact forall_byte (by decide)

/-- An encoded segment has no slash, so it stays one segment. -/
theorem slash_not_mem_encode {keeps : UInt8 → Bool} (hkeeps : keeps 0x2f = false)
    (bytes : List UInt8) : 0x2f ∉ encode keeps bytes := by
  intro h
  obtain ⟨b, -, hb⟩ := mem_flatMap.1 h
  cases hk : keeps b with
  | true =>
    rw [hk, if_pos rfl, mem_singleton] at hb
    rw [← hb, hkeeps] at hk
    exact Bool.false_ne_true hk
  | false =>
    rw [hk, if_neg Bool.false_ne_true] at hb
    simp only [mem_cons, not_mem_nil, or_false] at hb
    rcases hb with hb | hb | hb
    · exact absurd hb (by decide)
    · exact (hexDigit_ne_slash b).1 hb
    · exact (hexDigit_ne_slash b).2 hb

theorem encode_ne_nil {keeps : UInt8 → Bool} {bytes : List UInt8} (h : bytes ≠ []) :
    encode keeps bytes ≠ [] := by
  obtain ⟨b, rest, rfl⟩ := exists_cons_of_ne_nil h
  rw [encode, flatMap_cons]
  split_ifs
  all_goals exact cons_ne_nil _ _

theorem escaped_slash_right : escaped b 0x2f = none := by
  revert b
  exact forall_byte (by decide)

variable (c : UInt8)

theorem escaped_slash_left : escaped 0x2f c = none := by
  revert c
  exact forall_byte (by decide)

variable (s : List UInt8)

/-- **A slash is never part of an escape**: the parts around it are decoded on their own. -/
theorem decode_append_slash (t : List UInt8) :
    decode (s ++ 0x2f :: t) = decode s ++ 0x2f :: decode t := by
  have hslash : ∀ u, decode (0x2f :: u) = 0x2f :: decode u := decode_cons_of_ne (by decide)
  induction s using decode.induct with
  | case1 => exact hslash t
  | case2 a =>
    -- an escape cannot reach over the slash
    by_cases ha : a = 0x25
    · subst ha
      cases t with
      | nil => rfl
      | cons c t =>
        show decode (0x25 :: 0x2f :: c :: t) = _
        rw [decode_not_escape (escaped_slash_left c), hslash]
        rfl
    · show decode (a :: 0x2f :: t) = _
      rw [decode_cons_of_ne ha, hslash]
      rfl
  | case3 a b =>
    have hb : decode (b :: 0x2f :: t) = b :: 0x2f :: decode t := by
      by_cases hb : b = 0x25
      · subst hb
        cases t with
        | nil => rfl
        | cons c t => rw [decode_not_escape (escaped_slash_left c), hslash]
      · rw [decode_cons_of_ne hb, hslash]
    show decode (a :: b :: 0x2f :: t) = a :: b :: 0x2f :: decode t
    by_cases ha : a = 0x25
    · subst ha
      rw [decode_not_escape (escaped_slash_right b), hb]
    · rw [decode_cons_of_ne ha, hb]
  | case4 b c rest byte hbyte ih =>
    rw [decode_escape hbyte]
    show decode (0x25 :: b :: c :: (rest ++ 0x2f :: t)) = _
    rw [decode_escape hbyte, ih]
    rfl
  | case5 b c rest hnone ih =>
    rw [decode_not_escape hnone]
    show decode (0x25 :: b :: c :: (rest ++ 0x2f :: t)) = _
    rw [decode_not_escape hnone]
    exact congrArg (0x25 :: ·) ih
  | case6 a b c rest ha ih =>
    rw [decode_cons_of_ne ha]
    show decode (a :: b :: c :: (rest ++ 0x2f :: t)) = _
    rw [decode_cons_of_ne ha]
    exact congrArg (a :: ·) ih

/-! ## Letter case -/

theorem hexValue_lowercaseByte : hexValue (lowercaseByte b) = hexValue b := by
  revert b
  exact forall_byte (by decide)

theorem escaped_lowercaseByte : escaped (lowercaseByte b) (lowercaseByte c) = escaped b c := by
  rw [escaped, escaped, hexValue_lowercaseByte, hexValue_lowercaseByte]

theorem lowercaseByte_eq_percent_iff : lowercaseByte b = 0x25 ↔ b = 0x25 := by
  revert b
  exact forall_byte (by decide)

theorem lowercaseByte_idem : lowercaseByte (lowercaseByte b) = lowercaseByte b := by
  revert b
  exact forall_byte (by decide)

/-- The letter case of a coded text only changes the letter case of what it stands for. -/
theorem lowercase_decode_lowercase :
    (decode (s.map lowercaseByte)).map lowercaseByte = (decode s).map lowercaseByte := by
  induction s using decode.induct with
  | case1 => rfl
  | case2 a => exact congrArg (fun x => [x]) (lowercaseByte_idem a)
  | case3 a b =>
    show [_, _] = [_, _]
    rw [lowercaseByte_idem, lowercaseByte_idem]
  | case4 b c rest byte hbyte ih =>
    rw [decode_escape hbyte]
    show (decode (0x25 :: lowercaseByte b :: lowercaseByte c :: rest.map lowercaseByte)).map _ = _
    rw [decode_escape ((escaped_lowercaseByte b c).trans hbyte)]
    exact congrArg (lowercaseByte byte :: ·) ih
  | case5 b c rest hnone ih =>
    rw [decode_not_escape hnone]
    show (decode (0x25 :: lowercaseByte b :: lowercaseByte c :: rest.map lowercaseByte)).map _ = _
    rw [decode_not_escape ((escaped_lowercaseByte b c).trans hnone)]
    exact congrArg (lowercaseByte 0x25 :: ·) ih
  | case6 a b c rest ha ih =>
    rw [decode_cons_of_ne ha, map_cons,
      decode_cons_of_ne (fun h => ha ((lowercaseByte_eq_percent_iff a).1 h)), map_cons,
      lowercaseByte_idem, ih, map_cons]

theorem lowercase_decode_congr {s t : List UInt8} (h : s.map lowercaseByte = t.map lowercaseByte) :
    (decode s).map lowercaseByte = (decode t).map lowercaseByte := by
  rw [← lowercase_decode_lowercase s, h, lowercase_decode_lowercase]

end UrlCoding
