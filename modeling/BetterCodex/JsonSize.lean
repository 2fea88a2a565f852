/-
# The sizes of JSON values

How many bytes a text takes as a JSON string, and how many compact JSON arrays and objects take, as
`serde_json` writes them.
-/
import BetterCodex.RustStr

namespace JsonSize

open RustStr

/-- The size of a character in a JSON string. -/
def escapedSize (c : Char) : ℕ :=
  if c = '"' ∨ c = '\\' ∨ c = '\n' ∨ c = '\r' ∨ c = '\t' ∨ c = '\x08' ∨ c = '\x0c' then 2
  else if c.toNat < 32 then 6
  else c.utf8Size

/-- The size of a text as a JSON string. -/
def jsonString (s : Text) : ℕ := 2 + (s.map escapedSize).sum

/-- The size of a natural number. -/
def jsonNat (n : ℕ) : ℕ := (Nat.toDigits 10 n).length

/-- The size of a truth value. -/
def jsonBool (b : Bool) : ℕ := if b then 4 else 5

/-- The size of an optional value, `null` if it is absent. -/
def jsonOption {α : Type} (size : α → ℕ) (v : Option α) : ℕ := v.elim 4 size

/-- The size of an array of values. -/
def jsonArray (values : List ℕ) : ℕ := 2 + values.sum + (values.length - 1)

/-- The size of a field with its key. -/
def jsonField (key : Text) (value : ℕ) : ℕ := jsonString key + 1 + value

/-- The size of an object of fields. -/
def jsonObject (fields : List ℕ) : ℕ := 2 + fields.sum + (fields.length - 1)

theorem jsonString_replicate {c : Char} (hc : escapedSize c = 1) (n : ℕ) :
    jsonString (List.replicate n c) = n + 2 := by
  rw [jsonString, List.map_replicate, List.sum_replicate, hc, smul_eq_mul]
  omega

end JsonSize
