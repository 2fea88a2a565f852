/-
# IP addresses and their textual forms

The part of `std::net` that the network proxy rests on: the two address types,
the parser behind `str::parse::<IpAddr>`, and the address classes of the
standard library.  Nothing here belongs to the proxy itself.

The parser follows the standard library's reader by reader.  `parseIpAddr_chars` says which
characters such a text can have; what the proxy does with a literal depends only on that.
-/
import BetterCodex.RustStr

namespace IpText

open RustStr Option

/-! ## Addresses -/

/-- `std::net::Ipv4Addr`, by octets. -/
structure Ipv4Addr where
  a : UInt8
  b : UInt8
  c : UInt8
  d : UInt8
  deriving DecidableEq, Repr

/-- `std::net::Ipv6Addr`, by 16-bit segments. -/
structure Ipv6Addr where
  s0 : UInt16
  s1 : UInt16
  s2 : UInt16
  s3 : UInt16
  s4 : UInt16
  s5 : UInt16
  s6 : UInt16
  s7 : UInt16
  deriving DecidableEq, Repr

/-- `std::net::IpAddr`. -/
inductive IpAddr where
  | v4 (ip : Ipv4Addr)
  | v6 (ip : Ipv6Addr)
  deriving DecidableEq, Repr

/-! ## The parser -/

/-- A reader takes a value off the front of the text, or fails. -/
abbrev Reader (α : Type) := Text → Option (α × Text)

/-- `char::to_digit`. -/
def toDigit (radix : ℕ) (c : Char) : Option ℕ :=
  let value :=
    if '0' ≤ c ∧ c ≤ '9' then some (c.toNat - '0'.toNat)
    else if 'a' ≤ c ∧ c ≤ 'z' then some (c.toNat - 'a'.toNat + 10)
    else if 'A' ≤ c ∧ c ≤ 'Z' then some (c.toNat - 'A'.toNat + 10)
    else none
  value.filter (· < radix)

/-- Whether `c` is a digit in the given radix. -/
def isDigit (radix : ℕ) (c : Char) : Bool := (toDigit radix c).isSome

/-- `read_number`: a number below `bound`. -/
def readNumber (radix maxDigits : ℕ) (allowZeroPrefix : Bool) (bound : ℕ) : Reader ℕ := fun s =>
  let digits := s.takeWhile (isDigit radix)
  let value := digits.foldl (fun n c => n * radix + (toDigit radix c).getD 0) 0
  if digits = [] ∨ maxDigits < digits.length then none
  else if !allowZeroPrefix ∧ digits.head? = some '0' ∧ 1 < digits.length then none
  else if value < bound then some (value, s.dropWhile (isDigit radix))
  else none

def readGivenChar (c : Char) : Text → Option Text
  | d :: s => if d = c then some s else none
  | [] => none

/-- `read_separator`: every item but the first stands behind `sep`. -/
def readSeparator {α : Type} (sep : Char) (index : ℕ) (inner : Reader α) : Reader α := fun s =>
  if 0 < index then (readGivenChar sep s).bind inner else inner s

/-- One octet of an IPv4 address. -/
def readOctet (index : ℕ) : Reader UInt8 := fun s =>
  (readSeparator '.' index (readNumber 10 3 false 256) s).map fun (n, rest) => (UInt8.ofNat n, rest)

def readIpv4Addr : Reader Ipv4Addr := fun s => do
  let (a, s) ← readOctet 0 s
  let (b, s) ← readOctet 1 s
  let (c, s) ← readOctet 2 s
  let (d, s) ← readOctet 3 s
  return (⟨a, b, c, d⟩, s)

/-- Two octets as one segment. -/
def fromBeBytes (hi lo : UInt8) : UInt16 := UInt16.ofNat (256 * hi.toNat + lo.toNat)

/-- `read_groups` from group `index` on, with `room` groups left: the groups read,
whether they end in an IPv4 address, and the rest of the text. -/
def readGroups : ℕ → ℕ → Text → List UInt16 × Bool × Text
  | _, 0, s => ([], false, s)
  | index, room + 1, s =>
    -- an embedded IPv4 address takes two groups
    match if 0 < room then readSeparator ':' index readIpv4Addr s else none with
    | some (ip, s) => ([fromBeBytes ip.a ip.b, fromBeBytes ip.c ip.d], true, s)
    | none =>
      match readSeparator ':' index (readNumber 16 4 true 65536) s with
      | some (group, s) =>
        let (groups, endsInIpv4, s) := readGroups (index + 1) room s
        (UInt16.ofNat group :: groups, endsInIpv4, s)
      | none => ([], false, s)

/-- The address whose first groups are `head`, whose last ones are `tail`, with
zeroes between. -/
def joinGroups (head tail : List UInt16) : Ipv6Addr :=
  let segments := head ++ List.replicate (8 - (head.length + tail.length)) 0 ++ tail
  let segment := fun i : ℕ => segments.getD i 0
  ⟨segment 0, segment 1, segment 2, segment 3, segment 4, segment 5, segment 6, segment 7⟩

def readIpv6Addr : Reader Ipv6Addr := fun s =>
  let (head, headIpv4, s) := readGroups 0 8 s
  if head.length = 8 then some (joinGroups head [], s)
  else if headIpv4 then none
  else do
    let s ← readGivenChar ':' s
    let s ← readGivenChar ':' s
    let (tail, _, s) := readGroups 0 (8 - (head.length + 1)) s
    return (joinGroups head tail, s)

/-- `parse_with`: the reader must use up the text. -/
def parseWith {α : Type} (reader : Reader α) (s : Text) : Option α :=
  match reader s with
  | some (value, []) => some value
  | _ => none

/-- `str::parse::<Ipv6Addr>`. -/
def parseIpv6Addr (s : Text) : Option Ipv6Addr := parseWith readIpv6Addr s

/-- `str::parse::<IpAddr>`. -/
def parseIpAddr (s : Text) : Option IpAddr :=
  parseWith (fun s => match readIpv4Addr s with
    | some (ip, rest) => some (IpAddr.v4 ip, rest)
    | none => (readIpv6Addr s).map fun (ip, rest) => (IpAddr.v6 ip, rest)) s

example : parseIpAddr "10.0.0.255".toList = some (.v4 ⟨10, 0, 0, 255⟩) := by decide
example : parseIpAddr "::ffff:1.2.3.4".toList =
    some (.v6 ⟨0, 0, 0, 0, 0, 0xffff, 0x102, 0x304⟩) := by decide
example : parseIpAddr "127.0.0.01".toList = none := by decide

/-! ## The characters of a parsed text -/

/-- Every value that the reader returns was read off characters in `ok`. -/
def Reader.Within {α : Type} (ok : Char → Prop) (reader : Reader α) : Prop :=
  ∀ s value rest, reader s = some (value, rest) → ∃ used, s = used ++ rest ∧ ∀ c ∈ used, ok c

section
variable {α : Type} {ok ok' : Char → Prop}

theorem Reader.Within.mono {reader : Reader α} (h : reader.Within ok) (hok : ∀ c, ok c → ok' c) :
    reader.Within ok' := by
  intro s value rest hr
  obtain ⟨used, hs, hused⟩ := h s value rest hr
  exact ⟨used, hs, fun c hc => hok c (hused c hc)⟩

theorem Reader.Within.after {reader : Reader α} (h : reader.Within ok) {used s rest : Text}
    {value : α} (hused : ∀ c ∈ used, ok c) (hr : reader s = some (value, rest)) :
    ∃ used', used ++ s = used' ++ rest ∧ ∀ c ∈ used', ok c := by
  obtain ⟨used', rfl, hused'⟩ := h s value rest hr
  refine ⟨used ++ used', by simp, ?_⟩
  intro c hc
  rcases List.mem_append.1 hc with hc | hc
  · exact hused c hc
  · exact hused' c hc

theorem readGivenChar_eq_some {c : Char} {s rest : Text} (h : readGivenChar c s = some rest) :
    s = c :: rest := by
  match s with
  | d :: s =>
    simp only [readGivenChar] at h
    split_ifs at h with hd
    rw [hd, some.inj h]

theorem readNumber_within (radix maxDigits bound : ℕ) (allowZeroPrefix : Bool) :
    (readNumber radix maxDigits allowZeroPrefix bound).Within (isDigit radix · = true) := by
  intro s value rest h
  simp only [readNumber] at h
  split_ifs at h
  obtain ⟨-, rfl⟩ := Prod.mk.inj (some.inj h)
  exact ⟨_, List.takeWhile_append_dropWhile.symm, fun c => List.mem_takeWhile_imp⟩

theorem readSeparator_within {sep : Char} (hsep : ok sep) {inner : Reader α}
    (h : inner.Within ok) (index : ℕ) : (readSeparator sep index inner).Within ok := by
  intro s value rest hr
  simp only [readSeparator] at hr
  split_ifs at hr
  · obtain ⟨s', hs', hr'⟩ := bind_eq_some_iff.1 hr
    rw [readGivenChar_eq_some hs']
    have hused : ∀ c ∈ [sep], ok c := by simpa using hsep
    exact h.after hused hr'
  · exact h s value rest hr

end

/-- The characters of an IPv4 address. -/
def IsIpv4Char (c : Char) : Prop := isDigit 10 c = true ∨ c = '.'

/-- The characters of an IP address. -/
def IsIpChar (c : Char) : Prop := isDigit 16 c = true ∨ c = '.' ∨ c = ':'

theorem readOctet_within (index : ℕ) : (readOctet index).Within IsIpv4Char := by
  intro s value rest h
  obtain ⟨⟨n, rest'⟩, hr, heq⟩ := map_eq_some_iff.1 h
  obtain ⟨-, rfl⟩ := Prod.mk.inj heq
  have hnumber : (readNumber 10 3 false 256).Within IsIpv4Char :=
    (readNumber_within 10 3 256 false).mono fun c => .inl
  exact readSeparator_within (.inr rfl) hnumber index s n rest' hr

theorem readIpv4Addr_within : readIpv4Addr.Within IsIpv4Char := by
  intro s value rest h
  simp only [readIpv4Addr, bind_eq_bind, bind_eq_some_iff] at h
  obtain ⟨⟨a, s1⟩, ha, ⟨b, s2⟩, hb, ⟨c, s3⟩, hc, ⟨d, s4⟩, hd, heq⟩ := h
  obtain rfl : s4 = rest := (Prod.mk.inj (some.inj heq)).2
  obtain ⟨u1, rfl, hu1⟩ := readOctet_within 0 _ _ _ ha
  obtain ⟨u2, hs2, hu2⟩ := (readOctet_within 1).after hu1 hb
  obtain ⟨u3, hs3, hu3⟩ := (readOctet_within 2).after hu2 hc
  rw [hs2, hs3]
  exact (readOctet_within 3).after hu3 hd

theorem isDigit_sixteen_of_ten {c : Char} (h : isDigit 10 c = true) : isDigit 16 c = true := by
  simp only [isDigit, toDigit, isSome_filter] at h ⊢
  rw [any_eq_true] at h ⊢
  obtain ⟨n, hn, hlt⟩ := h
  refine ⟨n, hn, ?_⟩
  rw [decide_eq_true_eq] at hlt ⊢
  omega

theorem IsIpv4Char.isIpChar {c : Char} (h : IsIpv4Char c) : IsIpChar c :=
  h.imp isDigit_sixteen_of_ten .inl

/-- The groups that are read, and the rest of the text. -/
theorem readGroups_within (index room : ℕ) (s : Text) :
    ∃ used, s = used ++ (readGroups index room s).2.2 ∧ ∀ c ∈ used, IsIpChar c := by
  have hsep : IsIpChar ':' := .inr (.inr rfl)
  induction room generalizing index s with
  | zero => exact ⟨[], rfl, by simp⟩
  | succ room ih =>
    rw [readGroups]
    split
    · rename_i ip rest hr
      split_ifs at hr
      exact readSeparator_within hsep (readIpv4Addr_within.mono fun c => IsIpv4Char.isIpChar)
        index s ip rest hr
    · split
      · rename_i group rest hr
        obtain ⟨used, rfl, hused⟩ := readSeparator_within hsep
          ((readNumber_within 16 4 65536 true).mono fun c => .inl) index s group rest hr
        obtain ⟨used', hrest, hused'⟩ := ih (index + 1) rest
        refine ⟨used ++ used', ?_, ?_⟩
        · rw [List.append_assoc, ← hrest]
        · intro c hc
          rcases List.mem_append.1 hc with hc | hc
          · exact hused c hc
          · exact hused' c hc
      · exact ⟨[], rfl, by simp⟩

/-- The reader takes only characters of IP addresses. -/
theorem readIpv6Addr_within : readIpv6Addr.Within IsIpChar := by
  intro s value rest h
  obtain ⟨used, hs, hused⟩ := readGroups_within 0 8 s
  simp only [readIpv6Addr] at h
  split_ifs at h
  · obtain ⟨-, rfl⟩ := Prod.mk.inj (some.inj h)
    exact ⟨used, hs, hused⟩
  · simp only [bind_eq_bind, bind_eq_some_iff] at h
    obtain ⟨s1, hs1, s2, hs2, heq⟩ := h
    have hcolons := readGivenChar_eq_some hs1
    rw [readGivenChar_eq_some hs2] at hcolons
    obtain ⟨tail, htail, htailok⟩ :=
      readGroups_within 0 (8 - ((readGroups 0 8 s).1.length + 1)) s2
    obtain ⟨-, rfl⟩ := Prod.mk.inj (some.inj heq)
    refine ⟨used ++ ':' :: ':' :: tail, ?_, ?_⟩
    · calc
        s = used ++ ':' :: ':' :: s2 := by rw [← hcolons, ← hs]
        _ = used ++ ':' :: ':' :: tail ++ _ := by simpa using htail
    · intro c hc
      rcases List.mem_append.1 hc with hc | hc
      · exact hused c hc
      · rcases List.mem_cons.1 hc with rfl | hc
        · exact .inr (.inr rfl)
        · rcases List.mem_cons.1 hc with rfl | hc
          · exact .inr (.inr rfl)
          · exact htailok c hc

theorem parseWith_eq_some {α : Type} {reader : Reader α} {s : Text} {value : α}
    (h : parseWith reader s = some value) : reader s = some (value, []) := by
  simp only [parseWith] at h
  split at h
  · rename_i hr
    rw [hr, some.inj h]
  · exact absurd h (by simp)

theorem chars_of_parseWith {α : Type} {ok : Char → Prop} {reader : Reader α}
    (hreader : reader.Within ok) {s : Text} {value : α} (h : parseWith reader s = some value) :
    ∀ c ∈ s, ok c := by
  obtain ⟨used, hs, hused⟩ := hreader s value [] (parseWith_eq_some h)
  rw [hs, List.append_nil]
  exact hused

/-- **Characters of a literal.**  A text that parses as an IPv6 address has only
hexadecimal digits, dots and colons. -/
theorem parseIpv6Addr_chars {s : Text} {ip : Ipv6Addr} (h : parseIpv6Addr s = some ip) :
    ∀ c ∈ s, IsIpChar c := chars_of_parseWith readIpv6Addr_within h

/-- An address is written with digits and dots, or is an IPv6 one. -/
theorem parseIpAddr_cases {s : Text} {ip : IpAddr} (h : parseIpAddr s = some ip) :
    (∀ c ∈ s, IsIpv4Char c) ∨ ∃ ip6, parseIpv6Addr s = some ip6 := by
  have hr := parseWith_eq_some h
  cases hv4 : readIpv4Addr s with
  | some out =>
    simp only [hv4, some.injEq, Prod.mk.injEq] at hr
    obtain ⟨used, hs, hused⟩ := readIpv4Addr_within s out.1 out.2 hv4
    rw [hs, hr.2, List.append_nil]
    exact .inl hused
  | none =>
    simp only [hv4] at hr
    obtain ⟨⟨ip6, rest⟩, hv6, heq⟩ := map_eq_some_iff.1 hr
    obtain rfl : rest = [] := (Prod.mk.inj heq).2
    refine .inr ⟨ip6, ?_⟩
    simp [parseIpv6Addr, parseWith, hv6]

theorem parseIpAddr_chars {s : Text} {ip : IpAddr} (h : parseIpAddr s = some ip) :
    ∀ c ∈ s, IsIpChar c := by
  rcases parseIpAddr_cases h with hchars | ⟨ip6, h6⟩
  · exact fun c hc => (hchars c hc).isIpChar
  · exact parseIpv6Addr_chars h6

/-! ## Address classes of the standard library -/

namespace Ipv4Addr

variable (ip : Ipv4Addr)

/-- `u32::from`. -/
def toU32 : UInt32 :=
  UInt32.ofNat (((ip.a.toNat * 256 + ip.b.toNat) * 256 + ip.c.toNat) * 256 + ip.d.toNat)

/-- `Ipv4Addr::is_loopback`: 127.0.0.0/8. -/
def isLoopback : Bool := ip.a == 127

/-- `Ipv4Addr::is_private`: 10.0.0.0/8, 172.16.0.0/12, 192.168.0.0/16. -/
def isPrivate : Bool :=
  ip.a == 10 || (ip.a == 172 && 16 ≤ ip.b && ip.b ≤ 31) || (ip.a == 192 && ip.b == 168)

/-- `Ipv4Addr::is_link_local`: 169.254.0.0/16. -/
def isLinkLocal : Bool := ip.a == 169 && ip.b == 254

def isUnspecified : Bool := ip == ⟨0, 0, 0, 0⟩

/-- `Ipv4Addr::is_multicast`: 224.0.0.0/4. -/
def isMulticast : Bool := 224 ≤ ip.a && ip.a ≤ 239

def isBroadcast : Bool := ip == ⟨255, 255, 255, 255⟩

end Ipv4Addr

namespace Ipv6Addr

variable (ip : Ipv6Addr)

/-- `Ipv6Addr::is_loopback`: `::1` only. -/
def isLoopback : Bool := ip == ⟨0, 0, 0, 0, 0, 0, 0, 1⟩

def isUnspecified : Bool := ip == ⟨0, 0, 0, 0, 0, 0, 0, 0⟩

/-- `Ipv6Addr::is_multicast`: ff00::/8. -/
def isMulticast : Bool := ip.s0 &&& 0xff00 == 0xff00

/-- `Ipv6Addr::is_unique_local`: fc00::/7. -/
def isUniqueLocal : Bool := ip.s0 &&& 0xfe00 == 0xfc00

/-- `Ipv6Addr::is_unicast_link_local`: fe80::/10. -/
def isUnicastLinkLocal : Bool := ip.s0 &&& 0xffc0 == 0xfe80

/-- `Ipv6Addr::to_ipv4`: the address embedded in `::a.b.c.d` or `::ffff:a.b.c.d`. -/
def toIpv4 : Option Ipv4Addr :=
  if ip.s0 = 0 ∧ ip.s1 = 0 ∧ ip.s2 = 0 ∧ ip.s3 = 0 ∧ ip.s4 = 0 ∧ (ip.s5 = 0 ∨ ip.s5 = 0xffff) then
    some ⟨(ip.s6 >>> 8).toUInt8, ip.s6.toUInt8, (ip.s7 >>> 8).toUInt8, ip.s7.toUInt8⟩
  else none

end Ipv6Addr

def IpAddr.isLoopback : IpAddr → Bool
  | .v4 ip => ip.isLoopback
  | .v6 ip => ip.isLoopback

end IpText
