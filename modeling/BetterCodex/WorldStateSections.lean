/-
# The sections of the world state

The live world state is a list of sections.  Rendering it against the stored snapshot
gives a new snapshot, the comparison state of each section, and the updates that the
model must see.
-/
import BetterCodex.MergePatch
import BetterCodex.ResponseItems

namespace WorldState

open RustStr Json SortedMap History Option

variable {N : Type}

/-! ## Values without `null` fields -/

def isNull : Value N → Bool
  | .null => true
  | _ => false

variable {v : Value N}

theorem isNull_iff : isNull v = true ↔ v = .null := by
  cases v <;> simp [isNull]

mutual

def removeNullObjectFields : Value N → Value N
  | .object fields => .object (removeNullFields fields)
  | v => v

/-- The fields that are not `null`, without `null` fields of their own. -/
def removeNullFields : List (Text × Value N) → Fields N
  | [] => []
  | (key, v) :: fields =>
    if isNull v then removeNullFields fields
    else (key, removeNullObjectFields v) :: removeNullFields fields

end

theorem removeNullObjectFields_leaf (h : ∀ fields, v ≠ .object fields) :
    removeNullObjectFields v = v := by
  rw [removeNullObjectFields]
  exact h

/-- The fields that are left. -/
theorem mem_removeNullFields {fields : Fields N} {e : Text × Value N}
    (h : e ∈ removeNullFields fields) :
    ∃ v, (e.1, v) ∈ fields ∧ v ≠ .null ∧ e.2 = removeNullObjectFields v := by
  induction fields with
  | nil => simp [removeNullFields] at h
  | cons e' fields ih =>
    obtain ⟨key, v⟩ := e'
    rw [removeNullFields] at h
    split_ifs at h with hnull
    · obtain ⟨w, hw, hne, he⟩ := ih h
      exact ⟨w, List.mem_cons_of_mem _ hw, hne, he⟩
    · rcases List.mem_cons.1 h with rfl | h
      · exact ⟨v, List.mem_cons_self, fun hv => hnull (isNull_iff.2 hv), rfl⟩
      · obtain ⟨w, hw, hne, he⟩ := ih h
        exact ⟨w, List.mem_cons_of_mem _ hw, hne, he⟩

theorem removeNullObjectFields_ne_null (h : v ≠ .null) : removeNullObjectFields v ≠ .null := by
  by_cases hobject : ∃ fields, v = .object fields
  · obtain ⟨fields, rfl⟩ := hobject
    rw [removeNullObjectFields]
    exact nofun
  · rwa [removeNullObjectFields_leaf (not_exists.1 hobject)]

theorem nullFree_removeNullObjectFields (v : Value N) : (removeNullObjectFields v).NullFree := by
  induction v using Value.induction with
  | leaf v hleaf =>
    rw [removeNullObjectFields_leaf hleaf]
    cases v with
    | object fields => exact absurd rfl (hleaf fields)
    | _ => trivial
  | object fields ih =>
    rw [removeNullObjectFields, Value.NullFree, Value.nullFreeFields_iff]
    intro e he
    obtain ⟨v, hv, hne, heq⟩ := mem_removeNullFields he
    rw [heq]
    exact ⟨removeNullObjectFields_ne_null hne, ih _ hv⟩

/-- Dropping null fields keeps the order of the others. -/
theorem canonical_removeNullObjectFields (v : Value N) :
    v.Canonical → (removeNullObjectFields v).Canonical := by
  induction v using Value.induction with
  | leaf v hleaf =>
    intro hv
    rwa [removeNullObjectFields_leaf hleaf]
  | object fields ih =>
    intro hv
    have hmap := canonical_object_iff.1 hv
    rw [removeNullObjectFields]
    refine canonical_object_iff.2 ⟨?_, fun e he => ?_⟩
    · -- the keys that remain are in their old order
      have hsorted := hmap.sorted
      clear hv hmap ih
      induction fields with
      | nil => exact List.Pairwise.nil
      | cons e fields ih =>
        obtain ⟨hhead, htail⟩ := List.pairwise_cons.1 hsorted
        rw [removeNullFields]
        split_ifs
        · exact ih htail
        · refine List.pairwise_cons.2 ⟨fun e' he' => ?_, ih htail⟩
          obtain ⟨v, hv, -, -⟩ := mem_removeNullFields he'
          exact hhead (e'.1, v) hv
    · obtain ⟨v, hv, -, heq⟩ := mem_removeNullFields he
      rw [heq]
      exact ih _ hv (hmap.values _ hv)

/-! ## Sections -/

inductive PreviousSectionState (T : Type) where
  | absent
  | unknown
  | known (previous : T)

/-- `ErasedWorldStateSection`.  The field `clean` holds by what the two kinds of sections
do with their snapshots. -/
structure ErasedSection (N Update : Type) where
  matchesLegacyFragment : Text → Text → Bool
  hasRetainedFragmentMatcher : Bool
  matchesRetainedFragment : Text → Text → Bool
  renderDiff : PreviousSectionState (Value N) → Option (Value N) × List Update
  clean : ∀ previous v, (renderDiff previous).1 = some v → v.Canonical ∧ v.NullFree

/-- `WorldStateSection`: a section with a typed snapshot. -/
structure WorldStateSection (S N Update : Type) where
  shouldPersist : Bool := true
  matchesCurrentLegacyFragment : Text → Text → Bool
  hasCurrentRetainedFragmentMatcher : Bool
  matchesRetainedFragment : Text → Text → Bool
  /-- `serde_json::to_value`. -/
  toValue : S → Option { v : Value N // v.Canonical }
  /-- `S::Snapshot::deserialize`. -/
  deserialize : Value N → Option S
  renderDiff : PreviousSectionState S → Option S × List Update

variable {S Update : Type}

def sectionSnapshot (sect : WorldStateSection S N Update) (snapshot : S) : Option (Value N) :=
  if sect.shouldPersist then
    match sect.toValue snapshot with
    | none => none
    | some v =>
      let v := removeNullObjectFields v.1
      if isNull v then none else some v
  else none

theorem sectionSnapshot_clean (sect : WorldStateSection S N Update) (snapshot : S) :
    ((sectionSnapshot sect snapshot).getD .null).Canonical ∧
      ((sectionSnapshot sect snapshot).getD .null).NullFree := by
  rw [sectionSnapshot]
  split_ifs
  · cases sect.toValue snapshot with
    | none => exact ⟨trivial, trivial⟩
    | some v =>
      dsimp only
      split_ifs
      · exact ⟨trivial, trivial⟩
      · exact ⟨canonical_removeNullObjectFields _ v.2, nullFree_removeNullObjectFields _⟩
  · exact ⟨trivial, trivial⟩

/-- The typed snapshot, if the stored value still is one. -/
def typedPrevious (sect : WorldStateSection S N Update) :
    PreviousSectionState (Value N) → PreviousSectionState S
  | .known previous =>
    match sect.deserialize previous with
    | some previous => .known previous
    | none => .unknown
  | .absent => .absent
  | .unknown => .unknown

/-- `ErasedWorldStateSection for S`; a snapshot that cannot be stored becomes `null`. -/
def WorldStateSection.erase (sect : WorldStateSection S N Update) : ErasedSection N Update where
  matchesLegacyFragment := sect.matchesCurrentLegacyFragment
  hasRetainedFragmentMatcher := sect.hasCurrentRetainedFragmentMatcher
  matchesRetainedFragment := sect.matchesRetainedFragment
  renderDiff previous :=
    let (snapshot, updates) := sect.renderDiff (typedPrevious sect previous)
    (snapshot.map fun snapshot => (sectionSnapshot sect snapshot).getD .null, updates)
  clean previous v h := by
    obtain ⟨snapshot, -, rfl⟩ := map_eq_some_iff.1 h
    exact sectionSnapshot_clean sect snapshot

/-- `ExtensionWorldStateSection`: the snapshot comes from an extension, without its
`null` fields. -/
def extensionSection (matchesLegacyFragment : Text → Text → Bool) (hasRetainedFragmentMatcher : Bool)
    (matchesRetainedFragment : Text → Text → Bool)
    (renderDiff : PreviousSectionState (Value N) → Option { v : Value N // v.Canonical } × List Update) :
    ErasedSection N Update where
  matchesLegacyFragment
  hasRetainedFragmentMatcher
  matchesRetainedFragment
  renderDiff previous :=
    ((renderDiff previous).1.map fun v => removeNullObjectFields v.1, (renderDiff previous).2)
  clean previous v h := by
    obtain ⟨w, -, rfl⟩ := map_eq_some_iff.1 h
    exact ⟨canonical_removeNullObjectFields _ w.2, nullFree_removeNullObjectFields _⟩

/-! ## Snapshots by section -/

/-- `PluginsInstructionsState::ID`. -/
def pluginsInstructionsId : Text := "plugins_instructions".toList

def retiredCheckpointId : Text := "plugins_instructions_catalog_retired".toList

def isRetiredCheckpoint (snapshot : Value N) : Bool :=
  let fields := snapshot.asObject.getD []
  (get "instructions".toList fields).isNone &&
    (get "catalog".toList fields matches some (.bool true))

/-- `section`. -/
def storedSection (fields : Fields N) (id : Text) : Option (Value N) :=
  match get id fields with
  | none => none
  | some (.bool false) =>
    if id = pluginsInstructionsId then
      match get retiredCheckpointId fields with
      | some retired => if isRetiredCheckpoint retired then some retired else some (.bool false)
      | none => some (.bool false)
    else some (.bool false)
  | some snapshot => some snapshot

def insertSection (fields : Fields N) (id : Text) (snapshot : Value N) : Fields N :=
  if id = pluginsInstructionsId ∧ isRetiredCheckpoint snapshot then
    insert id (.bool false) (insert retiredCheckpointId snapshot fields)
  else insert id snapshot fields

/-- A sorted map of values with a property. -/
structure IsMapOf (P : Value N → Prop) (fields : Fields N) : Prop where
  isMap : IsMap fields
  values : ∀ e ∈ fields, P e.2

section
variable {P : Value N → Prop} {fields : Fields N}

theorem isMapOf_nil : IsMapOf P ([] : Fields N) := ⟨.nil, nofun⟩

variable {v : Value N}

theorem IsMapOf.insert (h : IsMapOf P fields) (id : Text) (hv : v.Canonical ∧ P v) :
    IsMapOf P (insert id v fields) := by
  refine ⟨h.isMap.insert hv.1, fun e he => ?_⟩
  rcases mem_insert he with rfl | he
  · exact hv.2
  · exact h.values e he

variable {id : Text}

theorem IsMapOf.get (h : IsMapOf P fields) (hv : get id fields = some v) : v.Canonical ∧ P v :=
  ⟨h.isMap.get_canonical hv, h.values _ (mem_of_get hv)⟩

theorem IsMapOf.insertSection (hfalse : P (.bool false)) (h : IsMapOf P fields) (id : Text)
    (hv : v.Canonical ∧ P v) : IsMapOf P (insertSection fields id v) := by
  rw [WorldState.insertSection]
  split_ifs
  · exact (h.insert _ hv).insert _ ⟨trivial, hfalse⟩
  · exact h.insert _ hv

theorem storedSection_eq_some (hv : storedSection fields id = some v) :
    get id fields = some v ∨ get retiredCheckpointId fields = some v := by
  rw [storedSection] at hv
  split at hv
  · cases hv
  · rename_i hget
    split_ifs at hv
    · split at hv
      · rename_i retired hretired
        split_ifs at hv
        · exact Or.inr (hv ▸ hretired)
        · exact Or.inl (hv ▸ hget)
      · exact Or.inl (hv ▸ hget)
    · exact Or.inl (hv ▸ hget)
  · rename_i snapshot _ hget
    exact Or.inl (hv ▸ hget)

theorem IsMapOf.storedSection (h : IsMapOf P fields) (hv : storedSection fields id = some v) :
    v.Canonical ∧ P v := by
  rcases storedSection_eq_some hv with hget | hget
  · exact h.get hget
  · exact h.get hget

end

/-! ## Rendering -/

/-- `WorldState`: the sections in their order, under distinct ids. -/
structure LiveWorldState (N Update : Type) where
  sections : List (Text × ErasedSection N Update)
  nodup : (sections.map (·.1)).Nodup
  notRetired : retiredCheckpointId ∉ sections.map (·.1)

/-- One section of `render_with`; a skipped snapshot retains stored state. -/
def renderSection (stored : Fields N)
    (previous : Text → ErasedSection N Update → PreviousSectionState (Value N))
    (out : Fields N × List Update) (entry : Text × ErasedSection N Update) :
    Fields N × List Update :=
  let (snapshot, updates) := entry.2.renderDiff (previous entry.1 entry.2)
  (match snapshot.or (storedSection stored entry.1) with
    | some v => if isNull v then out.1 else insertSection out.1 entry.1 v
    | none => out.1,
   out.2 ++ updates)

section
variable {P : Value N → Prop} (hP : ∀ v : Value N, v.NullFree → v ≠ .null → P v)
include hP

theorem isMapOf_renderSection {stored : Fields N} (hstored : IsMapOf P stored)
    {previous : Text → ErasedSection N Update → PreviousSectionState (Value N)}
    {out : Fields N × List Update} (hout : IsMapOf P out.1)
    (entry : Text × ErasedSection N Update) :
    IsMapOf P (renderSection stored previous out entry).1 := by
  rw [renderSection]
  dsimp only
  split
  · rename_i v hv
    split_ifs with hnull
    · exact hout
    · refine hout.insertSection (hP _ trivial nofun) _ ?_
      rcases or_eq_some_iff.1 hv with hv | ⟨-, hv⟩
      · obtain ⟨hcanonical, hfree⟩ := entry.2.clean _ v hv
        exact ⟨hcanonical, hP v hfree fun h => hnull (isNull_iff.2 h)⟩
      · exact hstored.storedSection hv
  · exact hout

theorem isMapOf_renderSections {stored : Fields N} (hstored : IsMapOf P stored)
    {previous : Text → ErasedSection N Update → PreviousSectionState (Value N)}
    (sections : List (Text × ErasedSection N Update)) {out : Fields N × List Update}
    (hout : IsMapOf P out.1) :
    IsMapOf P (sections.foldl (renderSection stored previous) out).1 := by
  induction sections generalizing out with
  | nil => exact hout
  | cons entry sections ih => exact ih (isMapOf_renderSection hP hstored hout entry)

end

/-- The fields that are compared with: none without a stored snapshot. -/
def storedFields (stored : Option (WorldStateSnapshot N)) : Fields N :=
  (stored.map (·.fields)).getD []

theorem isMapOf_storedFields {P : Value N → Prop} {stored : Option (WorldStateSnapshot N)}
    (h : ∀ o ∈ stored, ∀ e ∈ o.fields, P e.2) : IsMapOf P (storedFields stored) := by
  cases stored with
  | none => exact isMapOf_nil
  | some o => exact ⟨o.isMap, h o rfl⟩

def renderWith (world : LiveWorldState N Update) (stored : Option (WorldStateSnapshot N))
    (previous : Text → ErasedSection N Update → PreviousSectionState (Value N)) :
    WorldStateSnapshot N × List Update :=
  let out := world.sections.foldl (renderSection (storedFields stored) previous) ([], [])
  have hout : IsMapOf (fun _ => True) out.1 :=
    isMapOf_renderSections (fun _ _ _ => trivial) (isMapOf_storedFields fun _ _ _ _ => trivial)
      world.sections isMapOf_nil
  (⟨out.1, hout.isMap⟩, out.2)

variable (world : LiveWorldState N Update)

/-- No `null` field enters a snapshot, which a patch could not express. -/
theorem nullFree_renderWith {stored : Option (WorldStateSnapshot N)}
    (hstored : ∀ o ∈ stored, o.NullFree)
    (previous : Text → ErasedSection N Update → PreviousSectionState (Value N)) :
    (renderWith world stored previous).1.NullFree := by
  rw [Object.NullFree, Value.nullFreeFields_iff]
  have hfields : IsMapOf (fun v => v ≠ .null ∧ v.NullFree) (storedFields stored) :=
    isMapOf_storedFields fun o ho => Value.nullFreeFields_iff.1 (hstored o ho)
  exact (isMapOf_renderSections (fun _ hfree hne => ⟨hne, hfree⟩) hfields world.sections
    isMapOf_nil).values

def renderFull (world : LiveWorldState N Update) : WorldStateSnapshot N × List Update :=
  renderWith world none fun _ _ => .absent

/-- `has_retained_fragment` and `has_legacy_fragment`, for the one matcher or the other. -/
def hasFragment {Opaque : Type} (matcher : Text → Text → Bool) (items : List (Envelope Opaque)) :
    Bool :=
  items.any fun e =>
    match e.item with
    | .message _ role content _ _ => content.any fun
      | .inputText text => matcher role text
      | _ => false
    | _ => false

def renderHistoryDiff {Opaque : Type} (world : LiveWorldState N Update)
    (previous : Option (WorldStateSnapshot N)) (items : List (Envelope Opaque)) :
    WorldStateSnapshot N × List Update :=
  renderWith world previous fun id sect =>
    match storedSection (storedFields previous) id with
    | some stored =>
      if sect.hasRetainedFragmentMatcher && !hasFragment sect.matchesRetainedFragment items then
        .absent
      else .known stored
    | none => if hasFragment sect.matchesLegacyFragment items then .unknown else .absent

theorem nullFree_renderFull : (renderFull world).1.NullFree :=
  nullFree_renderWith world (fun _ h => absurd h (not_mem_none _)) _

theorem nullFree_renderHistoryDiff {Opaque : Type} {previous : Option (WorldStateSnapshot N)}
    (h : ∀ o ∈ previous, o.NullFree) (items : List (Envelope Opaque)) :
    (renderHistoryDiff world previous items).1.NullFree :=
  nullFree_renderWith world h _

end WorldState
