/-
# Texts as UTF-8 bytes

Byte-wise matching reads a text through its encoding (`str::as_bytes`).  This
file collects what makes that harmless:

* the encoding is injective (`asBytes_injective`);
* an ASCII byte of the encoding is that ASCII character (`mem_asBytes_iff`);
* lower-casing ASCII bytes is lower-casing ASCII characters
  (`map_lowercaseByte_asBytes`);
* an encoded text that ends in an encoded text ends in it as a text
  (`asBytes_eq_append`), because no encoded character is a proper suffix of
  another one;
* whether bytes are an encoding (`isUtf8`) does not depend on the letter case
  (`isUtf8_lowercase`).
-/
import BetterCodex.RustStr

namespace Utf8

open RustStr List

/-- `str::as_bytes`. -/
def asBytes (s : Text) : List UInt8 := s.flatMap String.utf8EncodeChar

/-- `u8::to_ascii_lowercase`. -/
def lowercaseByte (b : UInt8) : UInt8 := if 0x41 ≤ b ∧ b ≤ 0x5a then b + 0x20 else b

@[simp] theorem asBytes_nil : asBytes [] = [] := rfl

@[simp] theorem asBytes_cons (c : Char) (s : Text) :
    asBytes (c :: s) = String.utf8EncodeChar c ++ asBytes s := by
  simp [asBytes]

@[simp] theorem asBytes_append (s t : Text) : asBytes (s ++ t) = asBytes s ++ asBytes t :=
  flatMap_append

theorem asBytes_injective : Function.Injective asBytes := by
  intro s t h
  have henc : s.utf8Encode = t.utf8Encode := by
    rw [List.utf8Encode, List.utf8Encode]
    exact congrArg List.toByteArray h
  have hdec := congrArg ByteArray.utf8Decode? henc
  rw [utf8Decode?_utf8Encode, utf8Decode?_utf8Encode] at hdec
  exact congrArg Array.toList (Option.some.inj hdec)

/-! ## ASCII characters and the other ones -/

theorem utf8EncodeChar_ascii {c : Char} (h : c.toNat ≤ 127) :
    String.utf8EncodeChar c = [UInt8.ofNat c.toNat] := by
  rw [String.utf8EncodeChar.eq_1]
  exact if_pos h

/-- All bytes of a character outside ASCII have their high bit set. -/
theorem high_of_mem_utf8EncodeChar {c : Char} (h : 127 < c.toNat) {b : UInt8}
    (hb : b ∈ String.utf8EncodeChar c) : 128 ≤ b.toNat := by
  have h' : ¬ c.val.toNat ≤ 127 := Nat.not_le.2 h
  rw [String.utf8EncodeChar.eq_1, if_neg h'] at hb
  split_ifs at hb
  all_goals
    simp only [mem_cons, not_mem_nil, or_false] at hb
    rcases hb with rfl | rfl | rfl | rfl <;> rw [UInt8.toNat_ofNat'] <;> omega

theorem lowercaseByte_of_high {b : UInt8} (h : 128 ≤ b.toNat) : lowercaseByte b = b := by
  refine if_neg ?_
  rintro ⟨-, hle⟩
  have : b.toNat ≤ 0x5a := hle
  omega

/-- Lowering the bytes of a character lowers the character. -/
theorem map_lowercaseByte_utf8EncodeChar (c : Char) :
    (String.utf8EncodeChar c).map lowercaseByte = String.utf8EncodeChar c.toLower := by
  by_cases hc : c.toNat ≤ 127
  · have hall : ∀ n : Fin 128, (String.utf8EncodeChar (Char.ofNat n)).map lowercaseByte =
        String.utf8EncodeChar (Char.ofNat n).toLower := by decide
    have := hall ⟨c.toNat, by omega⟩
    rwa [Char.ofNat_toNat] at this
  · have hlower : c.toLower = c := by
      refine dif_neg ?_
      rintro ⟨-, hle⟩
      have : c.toNat ≤ 'Z'.toNat := hle
      rw [show 'Z'.toNat = 90 from rfl] at this
      omega
    rw [hlower]
    conv_rhs => rw [← map_id (String.utf8EncodeChar c)]
    refine map_congr_left fun b hb => ?_
    exact lowercaseByte_of_high (high_of_mem_utf8EncodeChar (by omega) hb)

theorem map_lowercaseByte_asBytes (s : Text) :
    (asBytes s).map lowercaseByte = asBytes (toAsciiLowercase s) := by
  induction s with
  | nil => rfl
  | cons c s ih =>
    rw [asBytes_cons, map_append, map_lowercaseByte_utf8EncodeChar, ih]
    exact (asBytes_cons c.toLower (toAsciiLowercase s)).symm

/-- An ASCII byte occurs in the encoding only as its character. -/
theorem mem_asBytes_iff {c : Char} (hc : c.toNat ≤ 127) {s : Text} :
    UInt8.ofNat c.toNat ∈ asBytes s ↔ c ∈ s := by
  simp only [asBytes, mem_flatMap]
  constructor
  · rintro ⟨d, hd, hmem⟩
    have hascii : d.toNat ≤ 127 := by
      by_contra hnot
      have := high_of_mem_utf8EncodeChar (Nat.lt_of_not_le hnot) hmem
      rw [UInt8.toNat_ofNat'] at this
      omega
    rw [utf8EncodeChar_ascii hascii, mem_singleton] at hmem
    have hnat := congrArg UInt8.toNat hmem
    rw [UInt8.toNat_ofNat', UInt8.toNat_ofNat', Nat.mod_eq_of_lt (by omega),
      Nat.mod_eq_of_lt (by omega)] at hnat
    rwa [Char.toNat_inj.1 hnat]
  · intro hmem
    exact ⟨c, hmem, by simp [utf8EncodeChar_ascii hc]⟩

/-! ## Suffixes -/

/-- No encoded character is a proper suffix of another one. -/
theorem utf8EncodeChar_suffix_free {c d : Char} {z : List UInt8}
    (h : String.utf8EncodeChar c = z ++ String.utf8EncodeChar d) : z = [] ∧ c = d := by
  have hpos : 0 < (String.utf8EncodeChar d).length :=
    length_pos_iff.2 String.utf8EncodeChar_ne_nil
  have hlt : z.length < (String.utf8EncodeChar c).length := by
    rw [h, length_append]
    omega
  have hfirst : (String.utf8EncodeChar c)[z.length].IsUTF8FirstByte := by
    simp only [h, getElem_append_right le_rfl, Nat.sub_self]
    exact UInt8.isUTF8FirstByte_getElem_utf8EncodeChar.2 rfl
  have hz : z = [] :=
    length_eq_zero_iff.1 (UInt8.isUTF8FirstByte_getElem_utf8EncodeChar.1 hfirst)
  refine ⟨hz, ?_⟩
  rw [hz, nil_append] at h
  have hsingle : asBytes [c] = asBytes [d] := by simpa using h
  exact (List.cons.inj (asBytes_injective hsingle)).1

/-- **Suffixes of an encoding.**  Bytes before an encoded suffix are themselves
the encoding of a text. -/
theorem asBytes_eq_append {s t : Text} {y : List UInt8} (h : asBytes s = y ++ asBytes t) :
    ∃ x, s = x ++ t ∧ y = asBytes x := by
  induction t using List.reverseRecOn generalizing s with
  | nil => exact ⟨s, by simp, by simpa using h.symm⟩
  | append_singleton t d ih =>
    rcases eq_nil_or_concat' s with rfl | ⟨s, c, rfl⟩
    · have hempty := congrArg List.length h
      have hpos : 0 < (String.utf8EncodeChar d).length :=
        length_pos_iff.2 String.utf8EncodeChar_ne_nil
      simp only [asBytes_nil, asBytes_append, asBytes_cons, length_append, length_nil] at hempty
      omega
    · -- the last characters end the same bytes, so they are one character
      simp only [asBytes_append, asBytes_cons, asBytes_nil, append_nil, ← append_assoc] at h
      obtain ⟨hinit, rfl⟩ : asBytes s = y ++ asBytes t ∧ c = d := by
        rcases append_eq_append_iff.1 h with ⟨z, hz, hsuffix⟩ | ⟨z, hz, hsuffix⟩
        · obtain ⟨rfl, rfl⟩ := utf8EncodeChar_suffix_free hsuffix
          exact ⟨by simpa using hz.symm, rfl⟩
        · obtain ⟨rfl, rfl⟩ := utf8EncodeChar_suffix_free hsuffix
          exact ⟨by simpa using hz, rfl⟩
      obtain ⟨x, rfl, hy⟩ := ih hinit
      exact ⟨x, by simp, hy⟩

/-! ## Well-formed byte strings -/

/-- One byte of a scan.  The scan stands at the number of continuation bytes that are due and
the bounds of the next one. -/
def scanByte (scan : ℕ × UInt8 × UInt8) (b : UInt8) : Option (ℕ × UInt8 × UInt8) :=
  match scan with
  | (0, _, _) =>
    if b < 0x80 then some (0, 0x80, 0xbf)
    else if 0xc2 ≤ b ∧ b ≤ 0xdf then some (1, 0x80, 0xbf)
    -- no overlong forms and no surrogates
    else if b = 0xe0 then some (2, 0xa0, 0xbf)
    else if b = 0xed then some (2, 0x80, 0x9f)
    else if 0xe1 ≤ b ∧ b ≤ 0xef then some (2, 0x80, 0xbf)
    else if b = 0xf0 then some (3, 0x90, 0xbf)
    else if 0xf1 ≤ b ∧ b ≤ 0xf3 then some (3, 0x80, 0xbf)
    else if b = 0xf4 then some (3, 0x80, 0x8f)
    else none
  | (due + 1, low, high) => if low ≤ b ∧ b ≤ high then some (due, 0x80, 0xbf) else none

/-- `str::from_utf8(..).is_ok()`. -/
def isUtf8 (bytes : List UInt8) : Bool :=
  match bytes.foldlM scanByte (0, 0x80, 0xbf) with
  | some (0, _, _) => true
  | _ => false

theorem low_of_scanByte {scan scan' : ℕ × UInt8 × UInt8} {b : UInt8}
    (h : scanByte scan b = some scan') : 0x80 ≤ scan'.2.1 := by
  obtain ⟨due, low, high⟩ := scan
  cases due with
  | zero =>
    simp only [scanByte] at h
    split_ifs at h
    all_goals
      cases h
      decide
  | succ due =>
    simp only [scanByte] at h
    split_ifs at h
    cases h
    show (0x80 : UInt8) ≤ 0x80
    decide

theorem lowercaseByte_lt_iff (b : UInt8) : lowercaseByte b < 0x80 ↔ b < 0x80 := by
  rw [lowercaseByte]
  split_ifs with h
  · have hb : b.toNat ≤ 0x5a := UInt8.le_iff_toNat_le.1 h.2
    have hsum : (b + 0x20).toNat = b.toNat + 0x20 := by
      rw [UInt8.toNat_add]
      show (b.toNat + 0x20) % 256 = _
      omega
    rw [UInt8.lt_iff_toNat_lt, UInt8.lt_iff_toNat_lt, hsum]
    show b.toNat + 0x20 < 0x80 ↔ b.toNat < 0x80
    omega
  · exact Iff.rfl

theorem scanByte_lowercaseByte {scan : ℕ × UInt8 × UInt8} (hlow : 0x80 ≤ scan.2.1) (b : UInt8) :
    scanByte scan (lowercaseByte b) = scanByte scan b := by
  by_cases hb : b < 0x80
  · have hb' : lowercaseByte b < 0x80 := (lowercaseByte_lt_iff b).2 hb
    obtain ⟨due, low, high⟩ := scan
    cases due with
    | zero => rw [scanByte, scanByte, if_pos hb, if_pos hb']
    | succ due =>
      -- neither is a continuation byte
      have hnot : ∀ x : UInt8, x < 0x80 → ¬ (low ≤ x ∧ x ≤ high) :=
        fun x hx hle => UInt8.not_le.2 hx (UInt8.le_trans hlow hle.1)
      rw [scanByte, scanByte, if_neg (hnot _ hb'), if_neg (hnot _ hb)]
  · rw [lowercaseByte_of_high (Nat.le_of_not_lt fun h => hb (UInt8.lt_iff_toNat_lt.2 h))]

theorem foldlM_scanByte_lowercase {scan : ℕ × UInt8 × UInt8} (hlow : 0x80 ≤ scan.2.1)
    (bytes : List UInt8) :
    (bytes.map lowercaseByte).foldlM scanByte scan = bytes.foldlM scanByte scan := by
  induction bytes generalizing scan with
  | nil => rfl
  | cons b bytes ih =>
    rw [map_cons, foldlM_cons, foldlM_cons, scanByte_lowercaseByte hlow]
    cases h : scanByte scan b with
    | none => rfl
    | some scan' => exact ih (low_of_scanByte h)

theorem isUtf8_lowercase (bytes : List UInt8) : isUtf8 (bytes.map lowercaseByte) = isUtf8 bytes := by
  rw [isUtf8, isUtf8, foldlM_scanByte_lowercase (by decide)]

theorem isUtf8_congr_lowercase {s t : List UInt8} (h : s.map lowercaseByte = t.map lowercaseByte) :
    isUtf8 s = isUtf8 t := by
  rw [← isUtf8_lowercase s, h, isUtf8_lowercase]

end Utf8
