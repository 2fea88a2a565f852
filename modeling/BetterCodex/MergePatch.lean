/-
# World-state snapshots and merge patches

A world-state snapshot maps section ids to JSON values.  A change of the snapshot is
recorded as an RFC 7386 merge patch: objects are patched field by field, `null` deletes
a field, everything else is replaced.
-/
import BetterCodex.Json

namespace WorldState

open RustStr Json SortedMap Option

variable {N : Type} [DecidableEq N]

/-! ## Patches -/

/-- The fields to delete, as `null` entries of a new patch. -/
def removals (previous current : Fields N) : Fields N :=
  (previous.filter fun e => (get e.1 current).isNone).foldl (fun patch e => insert e.1 .null patch) []

mutual

def createMergePatch (previous : Value N) : Value N → Option (Value N)
  | .object current =>
    if previous = .object current then none
    else
      some (.object (patchFields previous.asObject current
        (removals (previous.asObject.getD []) current)))
  | current => if previous = current then none else some current

/-- The loop over the current fields: a new field is inserted as it is, a changed one by
its patch. -/
def patchFields (previous : Option (Fields N)) : List (Text × Value N) → Fields N → Fields N
  | [], patch => patch
  | (key, current) :: rest, patch =>
    match previous.bind (get key) with
    | none => patchFields previous rest (insert key current patch)
    | some old =>
      match createMergePatch old current with
      | none => patchFields previous rest patch
      | some value => patchFields previous rest (insert key value patch)

end

mutual

def applyMergePatchValue (target : Value N) : Value N → Value N
  | .object patch => .object (applyFields patch (target.asObject.getD []))
  | patch => patch

/-- The loop over the entries of a patch. -/
def applyFields : List (Text × Value N) → Fields N → Fields N
  | [], target => target
  | (key, value) :: rest, target =>
    applyFields rest
      (if value = .null then erase key target
      else
        match get key target with
        | some current => insert key (applyMergePatchValue current value) target
        | none => insert key (applyMergePatchValue .null value) target)

end

theorem createMergePatch_leaf {previous current : Value N}
    (h : ∀ fields, current ≠ .object fields) :
    createMergePatch previous current = if previous = current then none else some current := by
  rw [createMergePatch]
  exact h

theorem applyMergePatchValue_leaf {target patch : Value N} (h : ∀ fields, patch ≠ .object fields) :
    applyMergePatchValue target patch = patch := by
  rw [applyMergePatchValue]
  exact h

/-- The patch of one field. -/
def fieldPatch (previous : Option (Fields N)) (key : Text) (current : Value N) : Option (Value N) :=
  match previous.bind (get key) with
  | none => some current
  | some old => createMergePatch old current

theorem patchFields_cons (previous : Option (Fields N)) (key : Text) (current : Value N)
    (rest patch : Fields N) :
    patchFields previous ((key, current) :: rest) patch = patchFields previous rest
      (match fieldPatch previous key current with
      | none => patch
      | some value => insert key value patch) := by
  rw [patchFields, fieldPatch]
  cases previous.bind (get key) with
  | none => rfl
  | some old =>
    dsimp only
    cases createMergePatch old current <;> rfl

/-- What an entry of a patch makes of a field. -/
def patched (target : Option (Value N)) (value : Value N) : Option (Value N) :=
  if value = .null then none else some (applyMergePatchValue (target.getD .null) value)

/-! ## Key by key -/

omit [DecidableEq N] in
/-- A field that is gone is patched with `null`. -/
theorem get_removals (previous current : Fields N) (key : Text) :
    get key (removals previous current) =
      if (get key previous).isSome ∧ get key current = none then some .null else none := by
  have hfold : ∀ (entries patch : Fields N),
      get key (entries.foldl (fun patch e => insert e.1 .null patch) patch) =
        if (get key entries).isSome then some .null else get key patch := by
    intro entries
    induction entries with
    | nil => intro patch; rfl
    | cons e entries ih =>
      intro patch
      rw [List.foldl_cons, ih, get_insert, get_cons]
      by_cases hkey : key = e.1
      · simp [hkey]
      · simp [hkey]
  have hfilter : get key (previous.filter fun e => (get e.1 current).isNone) =
      if get key current = none then get key previous else none := by
    induction previous with
    | nil => simp
    | cons e previous ih =>
      obtain ⟨key', v⟩ := e
      rw [List.filter_cons]
      by_cases hkey : key = key'
      · subst hkey
        cases hcurrent : get key current <;> simp_all [get_cons]
      · cases hcurrent : get key' current <;> simp_all [get_cons]
  rw [removals, hfold, hfilter, get_nil]
  by_cases hcurrent : get key current = none <;> simp [hcurrent]

variable {current : Fields N}

/-- Creating a patch, key by key. -/
theorem get_patchFields {previous : Option (Fields N)} (h : Sorted current) (patch : Fields N)
    (key : Text) :
    get key (patchFields previous current patch) =
      ((get key current).bind (fieldPatch previous key)).or (get key patch) := by
  induction current generalizing patch with
  | nil => simp [patchFields]
  | cons e current ih =>
    obtain ⟨key', v⟩ := e
    obtain ⟨hhead, htail⟩ := List.pairwise_cons.1 h
    rw [patchFields_cons, ih htail, get_cons]
    by_cases hkey : key = key'
    · subst hkey
      rw [get_eq_none_of_lt hhead, if_pos rfl]
      cases hpatch : fieldPatch previous key v <;> simp [hpatch, get_insert]
    · rw [if_neg hkey]
      cases hpatch : fieldPatch previous key' v <;> simp [get_insert, hkey]

variable {patch : Fields N}

/-- Applying a patch, key by key. -/
theorem get_applyFields (h : Sorted patch) (target : Fields N) (key : Text) :
    get key (applyFields patch target) =
      match get key patch with
      | none => get key target
      | some value => patched (get key target) value := by
  induction patch generalizing target with
  | nil => simp [applyFields]
  | cons e patch ih =>
    obtain ⟨key', v⟩ := e
    obtain ⟨hhead, htail⟩ := List.pairwise_cons.1 h
    rw [applyFields, ih htail, get_cons]
    by_cases hkey : key = key'
    · subst hkey
      rw [get_eq_none_of_lt hhead, if_pos rfl]
      dsimp only
      rw [patched]
      split_ifs with hnull
      · rw [get_erase, if_pos rfl]
      · cases htarget : get key target <;> simp [get_insert]
    · rw [if_neg hkey]
      have hsame : get key (if v = .null then erase key' target
          else
            match get key' target with
            | some current => insert key' (applyMergePatchValue current v) target
            | none => insert key' (applyMergePatchValue .null v) target) = get key target := by
        split_ifs
        · rw [get_erase, if_neg hkey]
        · cases get key' target <;> simp [get_insert, hkey]
      rw [hsame]

/-! ## Patches and patched objects are maps -/

omit [DecidableEq N] in
theorem isMap_removals (previous current : Fields N) : IsMap (removals previous current) := by
  have hfold : ∀ (entries patch : Fields N), IsMap patch →
      IsMap (entries.foldl (fun patch e => insert e.1 .null patch) patch) := by
    intro entries
    induction entries with
    | nil => exact fun patch h => h
    | cons e entries ih => exact fun patch h => ih _ (h.insert trivial)
  exact hfold _ _ .nil

theorem isMap_patchFields {previous : Option (Fields N)}
    (hcurrent : ∀ e ∈ current, ∀ p, fieldPatch previous e.1 e.2 = some p → p.Canonical)
    (h : IsMap patch) : IsMap (patchFields previous current patch) := by
  induction current generalizing patch with
  | nil => rwa [patchFields]
  | cons e current ih =>
    obtain ⟨hhead, htail⟩ := List.forall_mem_cons.1 hcurrent
    rw [patchFields_cons]
    refine ih htail ?_
    cases hpatch : fieldPatch previous e.1 e.2 with
    | none => exact h
    | some p => exact h.insert (hhead p hpatch)

theorem canonical_createMergePatch (current : Value N) :
    current.Canonical → ∀ previous p, createMergePatch previous current = some p →
      p.Canonical := by
  induction current using Value.induction with
  | leaf v hleaf =>
    intro hv previous p hp
    rw [createMergePatch_leaf hleaf] at hp
    split_ifs at hp
    exact some.inj hp ▸ hv
  | object fields ih =>
    intro hfields previous p hp
    rw [createMergePatch] at hp
    split_ifs at hp
    obtain rfl := some.inj hp
    have hmap := canonical_object_iff.1 hfields
    refine canonical_object_iff.2 (isMap_patchFields (fun e he p hp => ?_) (isMap_removals _ _))
    rw [fieldPatch] at hp
    split at hp
    · exact some.inj hp ▸ hmap.values e he
    · exact ih e he (hmap.values e he) _ p hp

theorem isMap_applyFields (hpatch : ∀ e ∈ patch, ∀ target : Value N, target.Canonical →
      (applyMergePatchValue target e.2).Canonical) {target : Fields N} (h : IsMap target) :
    IsMap (applyFields patch target) := by
  induction patch generalizing target with
  | nil => rwa [applyFields]
  | cons e patch ih =>
    obtain ⟨hhead, htail⟩ := List.forall_mem_cons.1 hpatch
    rw [applyFields]
    refine ih htail ?_
    split_ifs
    · exact h.erase
    · cases htarget : get e.1 target with
      | none => exact h.insert (hhead _ trivial)
      | some current => exact h.insert (hhead _ (h.get_canonical htarget))

theorem canonical_applyMergePatchValue (patch : Value N) :
    patch.Canonical → ∀ target : Value N, target.Canonical →
      (applyMergePatchValue target patch).Canonical := by
  induction patch using Value.induction with
  | leaf v hleaf =>
    intro hv target _
    rwa [applyMergePatchValue_leaf hleaf]
  | object fields ih =>
    intro hfields target htarget
    have hmap := canonical_object_iff.1 hfields
    rw [applyMergePatchValue]
    exact canonical_object_iff.2 (isMap_applyFields (fun e he => ih e he (hmap.values e he))
      (isMap_asObject htarget))

/-! ## Snapshots -/

/-- `WorldStateSnapshot`: the comparison state of each section. -/
abbrev WorldStateSnapshot (N : Type) : Type := Object N

theorem isMap_snapshotPatch (current previous : WorldStateSnapshot N) :
    IsMap (patchFields (some previous.fields) current.fields
      (removals previous.fields current.fields)) := by
  refine isMap_patchFields (fun e he p hp => ?_) (isMap_removals _ _)
  rw [fieldPatch] at hp
  split at hp
  · exact some.inj hp ▸ current.isMap.values e he
  · exact canonical_createMergePatch e.2 (current.isMap.values e he) _ p hp

def mergePatchFrom (current previous : WorldStateSnapshot N) : Option (Object N) :=
  let patch : Object N := ⟨_, isMap_snapshotPatch current previous⟩
  if patch.fields.isEmpty then none else some patch

def applyMergePatch (target : WorldStateSnapshot N) (patch : Object N) : WorldStateSnapshot N where
  fields := applyFields patch.fields target.fields
  isMap := isMap_applyFields
    (fun e he => canonical_applyMergePatchValue e.2 (patch.isMap.values e he)) target.isMap

/-! ## Round trip -/

/-- A value is the patch that makes it out of nothing. -/
theorem applyMergePatchValue_null (v : Value N) :
    v.Canonical → v.NullFree → applyMergePatchValue .null v = v := by
  induction v using Value.induction with
  | leaf v hleaf => exact fun _ _ => applyMergePatchValue_leaf hleaf
  | object fields ih =>
    intro hfields hfree
    have hmap := canonical_object_iff.1 hfields
    rw [Value.NullFree, Value.nullFreeFields_iff] at hfree
    rw [applyMergePatchValue]
    congr 1
    refine ext_get (isMap_applyFields (fun e he => canonical_applyMergePatchValue e.2
      (hmap.values e he)) (isMap_asObject (v := .null) trivial)).sorted hmap.sorted fun key => ?_
    rw [get_applyFields hmap.sorted]
    cases hget : get key fields with
    | none => rfl
    | some w =>
      obtain ⟨hne, hfree⟩ := hfree _ (mem_of_get hget)
      dsimp only
      rw [patched, if_neg hne]
      exact congrArg some (ih _ (mem_of_get hget) (hmap.get_canonical hget) hfree)

theorem createMergePatch_eq_none {previous current : Value N} :
    createMergePatch previous current = none ↔ previous = current := by
  by_cases hobject : ∃ fields, current = .object fields
  · obtain ⟨fields, rfl⟩ := hobject
    rw [createMergePatch]
    split_ifs with h <;> simp [h]
  · rw [createMergePatch_leaf (not_exists.1 hobject)]
    split_ifs with h <;> simp [h]

/-- Patching the fields of an object, if patching works for its values. -/
theorem applyFields_patchFields {old : Option (Fields N)} (hold : IsMap (old.getD []))
    (hcurrent : IsMap current)
    (hpatch : IsMap (patchFields old current (removals (old.getD []) current)))
    (hfree : Value.NullFreeFields current) (ih : ∀ e ∈ current, ∀ previous p, previous.Canonical →
      createMergePatch previous e.2 = some p → p ≠ .null ∧ applyMergePatchValue previous p = e.2) :
    applyFields (patchFields old current (removals (old.getD []) current)) (old.getD []) =
      current := by
  rw [Value.nullFreeFields_iff] at hfree
  refine ext_get (isMap_applyFields (fun e he => canonical_applyMergePatchValue e.2
    (hpatch.values e he)) hold).sorted hcurrent.sorted fun key => ?_
  rw [get_applyFields hpatch.sorted, get_patchFields hcurrent.sorted, get_removals]
  have hprevious : old.bind (get key) = get key (old.getD []) := by cases old <;> rfl
  cases hcur : get key current with
  | none =>
    -- a field that is gone is deleted
    cases hprev : get key (old.getD []) with
    | none => simp
    | some w => simp [patched]
  | some v =>
    obtain ⟨hne, hfreev⟩ := hfree _ (mem_of_get hcur)
    rw [bind_some, fieldPatch, hprevious]
    cases hprev : get key (old.getD []) with
    | none =>
      -- a new field is inserted as it is
      rw [some_or]
      dsimp only
      rw [patched, if_neg hne]
      exact congrArg some (applyMergePatchValue_null v (hcurrent.get_canonical hcur) hfreev)
    | some w =>
      dsimp only
      cases hp : createMergePatch w v with
      | none =>
        rw [createMergePatch_eq_none] at hp
        simp [hp]
      | some p =>
        obtain ⟨hpne, happly⟩ := ih _ (mem_of_get hcur) w p (hold.get_canonical hprev) hp
        rw [some_or]
        dsimp only
        rw [patched, if_neg hpne]
        exact congrArg some happly

/-- The patch of two values leads from one to the other. -/
theorem applyMergePatchValue_createMergePatch (current : Value N) :
    current.Canonical → current.NullFree → current ≠ .null → ∀ previous p, previous.Canonical →
      createMergePatch previous current = some p →
        p ≠ .null ∧ applyMergePatchValue previous p = current := by
  induction current using Value.induction with
  | leaf v hleaf =>
    intro _ _ hne previous p _ hp
    rw [createMergePatch_leaf hleaf] at hp
    split_ifs at hp
    obtain rfl := some.inj hp
    exact ⟨hne, applyMergePatchValue_leaf hleaf⟩
  | object fields ih =>
    intro hfields hfree _ previous p hprevious hp
    have hmap := canonical_object_iff.1 hfields
    have hcanonical := canonical_createMergePatch _ hfields previous p hp
    rw [createMergePatch] at hp
    split_ifs at hp
    obtain rfl := some.inj hp
    refine ⟨nofun, ?_⟩
    rw [applyMergePatchValue, applyFields_patchFields (isMap_asObject hprevious) hmap
      (canonical_object_iff.1 hcanonical) hfree]
    intro e he previous p hprevious hp
    obtain ⟨hne, hfreee⟩ := Value.nullFreeFields_iff.1 hfree e he
    exact ih e he (hmap.values e he) hfreee hne previous p hprevious hp

/-- There is no patch exactly if nothing changed. -/
theorem mergePatchFrom_eq_none {current previous : WorldStateSnapshot N} :
    mergePatchFrom current previous = none ↔ previous = current := by
  have hempty : mergePatchFrom current previous = none ↔
      ∀ key, ((get key current.fields).bind (fieldPatch (some previous.fields) key)).or
        (if (get key previous.fields).isSome ∧ get key current.fields = none then some .null
          else none) = none := by
    simp only [mergePatchFrom, ite_eq_left_iff, reduceCtorEq, imp_false, not_not,
      List.isEmpty_iff, eq_nil_iff_get, get_patchFields current.isMap.sorted, get_removals]
  rw [hempty]
  constructor
  · intro h
    refine Object.ext (ext_get previous.isMap.sorted current.isMap.sorted fun key => ?_)
    have hkey := h key
    cases hcur : get key current.fields with
    | none =>
      cases hprev : get key previous.fields with
      | none => rfl
      | some w => simp [hcur, hprev] at hkey
    | some v =>
      cases hprev : get key previous.fields with
      | none => simp [hcur, hprev, fieldPatch] at hkey
      | some w =>
        simp only [hcur, hprev, fieldPatch, bind_some, or_eq_none_iff,
          createMergePatch_eq_none] at hkey
        rw [hkey.1]
  · rintro rfl key
    cases hcur : get key previous.fields with
    | none => simp
    | some v => simp [fieldPatch, hcur, createMergePatch_eq_none.2]

/-- The patch of two snapshots leads from one to the other. -/
theorem applyMergePatch_mergePatchFrom {previous current : WorldStateSnapshot N}
    (hfree : current.NullFree) {patch : Object N}
    (hpatch : mergePatchFrom current previous = some patch) :
    applyMergePatch previous patch = current := by
  rw [mergePatchFrom] at hpatch
  split_ifs at hpatch
  obtain rfl := some.inj hpatch
  refine Object.ext (applyFields_patchFields previous.isMap
    current.isMap (isMap_snapshotPatch current previous) hfree fun e he previous p hprevious hp => ?_)
  obtain ⟨hne, hfreee⟩ := Value.nullFreeFields_iff.1 hfree e he
  exact applyMergePatchValue_createMergePatch e.2 (current.isMap.values e he) hfreee hne
    previous p hprevious hp

/-- **Round trip.**  Applying the patch from one snapshot to another gives the other one,
if that holds no `null` fields, and no patch is recorded exactly if they are equal. -/
theorem merge_patch_roundtrip (previous current : WorldStateSnapshot N)
    (hfree : current.NullFree) :
    ((mergePatchFrom current previous).elim previous (applyMergePatch previous) = current) ∧
      (mergePatchFrom current previous = none ↔ previous = current) := by
  refine ⟨?_, mergePatchFrom_eq_none⟩
  cases hpatch : mergePatchFrom current previous with
  | none => exact mergePatchFrom_eq_none.1 hpatch
  | some patch => exact applyMergePatch_mergePatchFrom hfree hpatch

/-- A snapshot of one section with one field. -/
def singleField (id key : Text) (v : ℕ) : WorldStateSnapshot ℕ where
  fields := [(id, .object [(key, .number v)])]
  isMap := ⟨List.pairwise_singleton _ _, by simp [Value.Canonical, Value.CanonicalFields, Sorted]⟩

/-- A renamed field is deleted under its old name and inserted under its new one. -/
theorem merge_patch_roundtrip_rename :
    ((mergePatchFrom (singleField ['s'] ['b'] 1) (singleField ['s'] ['a'] 1)).elim
        (singleField ['s'] ['a'] 1) (applyMergePatch (singleField ['s'] ['a'] 1)) =
      singleField ['s'] ['b'] 1) ∧
    (mergePatchFrom (singleField ['s'] ['b'] 1) (singleField ['s'] ['a'] 1) = none ↔
      singleField ['s'] ['a'] 1 = singleField ['s'] ['b'] 1) :=
  merge_patch_roundtrip _ _ (by
    simp [Object.NullFree, singleField, Value.NullFreeFields, Value.NullFree])

end WorldState
