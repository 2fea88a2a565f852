/-
# JSON values

JSON trees over an arbitrary type of numbers.  An object is a sorted list of its
fields, so that two objects with the same fields are equal however they came about.
-/
import BetterCodex.RustStr
import BetterCodex.SortedMap

namespace Json

open RustStr SortedMap

/-- A JSON value; numbers are compared as the type of numbers compares them. -/
inductive Value (N : Type) where
  | null
  | bool (b : Bool)
  | number (n : N)
  | string (s : Text)
  | array (items : List (Value N))
  | object (fields : List (Text × Value N))
  deriving Repr

/-- The fields of an object. -/
abbrev Fields (N : Type) : Type := List (Text × Value N)

namespace Value

variable {N : Type}

/-- Induction over objects: every field may be assumed. -/
theorem induction {P : Value N → Prop}
    (leaf : ∀ v, (∀ fields, v ≠ .object fields) → P v)
    (object : ∀ fields : Fields N, (∀ e ∈ fields, P e.2) → P (.object fields)) :
    ∀ v, P v
  | .object fields => object fields fun e he =>
    have : sizeOf e.2 < 1 + sizeOf fields := by
      obtain ⟨key, v⟩ := e
      have := List.sizeOf_lt_of_mem he
      simp only [Prod.mk.sizeOf_spec] at this ⊢
      omega
    induction leaf object e.2
  | .null => leaf _ nofun
  | .bool _ => leaf _ nofun
  | .number _ => leaf _ nofun
  | .string _ => leaf _ nofun
  | .array _ => leaf _ nofun
termination_by v => sizeOf v

/-! ## Equality -/

section
variable [DecidableEq N]

mutual

/-- Equality of values is decided along their structure. -/
def decEq : (v w : Value N) → Decidable (v = w)
  | .null, w => match w with
    | .null => isTrue rfl
    | .bool _ | .number _ | .string _ | .array _ | .object _ => isFalse nofun
  | .bool b, w => match w with
    | .bool b' => decidable_of_iff (b = b') ⟨congrArg _, Value.bool.inj⟩
    | .null | .number _ | .string _ | .array _ | .object _ => isFalse nofun
  | .number n, w => match w with
    | .number n' => decidable_of_iff (n = n') ⟨congrArg _, Value.number.inj⟩
    | .null | .bool _ | .string _ | .array _ | .object _ => isFalse nofun
  | .string s, w => match w with
    | .string s' => decidable_of_iff (s = s') ⟨congrArg _, Value.string.inj⟩
    | .null | .bool _ | .number _ | .array _ | .object _ => isFalse nofun
  | .array items, w => match w with
    | .array items' =>
      have := decEqItems items items'
      decidable_of_iff (items = items') ⟨congrArg _, Value.array.inj⟩
    | .null | .bool _ | .number _ | .string _ | .object _ => isFalse nofun
  | .object fields, w => match w with
    | .object fields' =>
      have := decEqFields fields fields'
      decidable_of_iff (fields = fields') ⟨congrArg _, Value.object.inj⟩
    | .null | .bool _ | .number _ | .string _ | .array _ => isFalse nofun

/-- Equality of arrays. -/
def decEqItems : (items items' : List (Value N)) → Decidable (items = items')
  | [], [] => isTrue rfl
  | [], _ :: _ => isFalse nofun
  | _ :: _, [] => isFalse nofun
  | v :: items, v' :: items' =>
    have := decEq v v'
    have := decEqItems items items'
    decidable_of_iff (v = v' ∧ items = items') List.cons_eq_cons.symm

/-- Equality of objects. -/
def decEqFields : (fields fields' : List (Text × Value N)) → Decidable (fields = fields')
  | [], [] => isTrue rfl
  | [], _ :: _ => isFalse nofun
  | _ :: _, [] => isFalse nofun
  | (k, v) :: fields, (k', v') :: fields' =>
    have := decEq v v'
    have := decEqFields fields fields'
    decidable_of_iff ((k = k' ∧ v = v') ∧ fields = fields') (by
      rw [List.cons_eq_cons, Prod.mk.injEq])

end

instance : DecidableEq (Value N) := decEq

end

def asObject : Value N → Option (Fields N)
  | .object fields => some fields
  | _ => none

/-! ## Invariants -/

mutual

/-- Every object in the value is sorted by key, inside arrays too. -/
def Canonical : Value N → Prop
  | .object fields => Sorted fields ∧ CanonicalFields fields
  | .array items => CanonicalItems items
  | _ => True

/-- The items of an array are canonical. -/
def CanonicalItems : List (Value N) → Prop
  | [] => True
  | v :: items => v.Canonical ∧ CanonicalItems items

/-- The values of the fields are canonical. -/
def CanonicalFields : List (Text × Value N) → Prop
  | [] => True
  | (_, v) :: fields => v.Canonical ∧ CanonicalFields fields

end

mutual

/-- No object has a field that is `null`, at any depth outside arrays. -/
def NullFree : Value N → Prop
  | .object fields => NullFreeFields fields
  | _ => True

/-- No field is `null`, and none holds one. -/
def NullFreeFields : List (Text × Value N) → Prop
  | [] => True
  | (_, v) :: fields => (v ≠ .null ∧ v.NullFree) ∧ NullFreeFields fields

end

theorem canonicalFields_iff {fields : Fields N} :
    CanonicalFields fields ↔ ∀ e ∈ fields, e.2.Canonical := by
  induction fields with
  | nil => simp [CanonicalFields]
  | cons e fields ih => rw [CanonicalFields, ih, List.forall_mem_cons]

theorem nullFreeFields_iff {fields : Fields N} :
    NullFreeFields fields ↔ ∀ e ∈ fields, e.2 ≠ .null ∧ e.2.NullFree := by
  induction fields with
  | nil => simp [NullFreeFields]
  | cons e fields ih => rw [NullFreeFields, ih, List.forall_mem_cons]

end Value

/-- The entries of a map: sorted, with canonical values. -/
structure IsMap {N : Type} (fields : Fields N) : Prop where
  sorted : Sorted fields
  values : ∀ e ∈ fields, e.2.Canonical

theorem canonical_object_iff {N : Type} {fields : Fields N} :
    (Value.object fields).Canonical ↔ IsMap fields := by
  rw [Value.Canonical, Value.canonicalFields_iff]
  exact ⟨fun h => ⟨h.1, h.2⟩, fun h => ⟨h.1, h.2⟩⟩

namespace IsMap

variable {N : Type} {fields : Fields N}

theorem nil : IsMap ([] : Fields N) := ⟨.nil, nofun⟩

theorem get_canonical (h : IsMap fields) {key : Text} {v : Value N} (hv : get key fields = some v) :
    v.Canonical :=
  h.values (key, v) (mem_of_get hv)

theorem insert (h : IsMap fields) {key : Text} {v : Value N} (hv : v.Canonical) :
    IsMap (insert key v fields) := by
  refine ⟨h.sorted.insert, fun e he => ?_⟩
  rcases mem_insert he with rfl | he
  · exact hv
  · exact h.values e he

theorem erase (h : IsMap fields) {key : Text} : IsMap (erase key fields) :=
  ⟨h.sorted.erase, fun e he => h.values e (List.mem_of_mem_filter he)⟩

end IsMap

theorem isMap_asObject {N : Type} {v : Value N} (h : v.Canonical) : IsMap (v.asObject.getD []) := by
  cases v with
  | object fields => exact canonical_object_iff.1 h
  | _ => exact .nil

/-- `Map<String, Value>`. -/
@[ext] structure Object (N : Type) where
  fields : Fields N
  isMap : IsMap fields

/-- No field is `null`, at any depth outside arrays. -/
def Object.NullFree {N : Type} (o : Object N) : Prop := Value.NullFreeFields o.fields

end Json
