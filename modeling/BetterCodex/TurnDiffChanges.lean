/-
# The changes that a turn's diff shows (`core/src/turn_diff_tracker.rs`)

From its maps the tracker makes a list of changes, each from a path and content of the
beginning of the turn to a path and content of now, and renders them as one diff.
-/
import BetterCodex.TurnDiffTracker

namespace TurnDiff

open RustStr Disk ApplyPatch List SortedMap TurnDiffTracker

variable {Path : Type} [LinearOrder Path]

/-! ## Rendering -/

/-- A change: a path and its content before, a path and its content after. -/
structure Change (Path : Type) where
  leftPath : TrackedPath Path
  leftContent : Option TrackedContent
  rightPath : TrackedPath Path
  rightContent : Option TrackedContent

/-- What is left to others: the names of paths, object ids, and the lines of a diff. -/
structure DiffServices (Path : Type) where
  displayPath : TrackedPath Path → Text
  gitBlobOid : Text → Text
  unifiedDiff : (left right oldHeader newHeader : Text) → Text

def zeroOid : Text := List.replicate 40 '0'
def devNull : Text := "/dev/null".toList
def regularFileMode : Text := "100644".toList

def renderDiff (services : DiffServices Path) (leftPath : TrackedPath Path) (leftContent : Option Text)
    (rightPath : TrackedPath Path) (rightContent : Option Text) : Option Text :=
  if leftContent = rightContent then none
  else
    let slashes (display : Text) : Text := display.map fun c => if c = '\\' then '/' else c
    let leftDisplay := slashes (services.displayPath leftPath)
    let rightDisplay := slashes (services.displayPath rightPath)
    let leftOid := leftContent.elim zeroOid services.gitBlobOid
    let rightOid := rightContent.elim zeroOid services.gitBlobOid
    let header := "diff --git a/".toList ++ leftDisplay ++ " b/".toList ++ rightDisplay ++ ['\n']
    let mode := match leftContent, rightContent with
      | none, some _ => "new file mode ".toList ++ regularFileMode ++ ['\n']
      | some _, none => "deleted file mode ".toList ++ regularFileMode ++ ['\n']
      | _, _ => []
    let index := "index ".toList ++ leftOid ++ "..".toList ++ rightOid ++ ['\n']
    let oldHeader := if leftContent.isSome then "a/".toList ++ leftDisplay else devNull
    let newHeader := if rightContent.isSome then "b/".toList ++ rightDisplay else devNull
    some (header ++ mode ++ index ++
      services.unifiedDiff (leftContent.getD []) (rightContent.getD []) oldHeader newHeader)

def Change.key (c : Change Path) : DiffCacheKey Path where
  leftPath := c.leftPath
  leftRevision := c.leftContent.map (·.revision)
  rightPath := c.rightPath
  rightRevision := c.rightContent.map (·.revision)

/-- The diff of a change. -/
def Change.render (services : DiffServices Path) (c : Change Path) : Option Text :=
  renderDiff services c.leftPath (c.leftContent.map (·.content)) c.rightPath
    (c.rightContent.map (·.content))

/-- The diffs one after the other, each with its last line ended. -/
def aggregate (diffs : List (Option Text)) : Text :=
  diffs.foldl (fun aggregated rendered =>
    match rendered with
    | some diff => if endsWith (aggregated ++ diff) ['\n'] then aggregated ++ diff
        else aggregated ++ diff ++ ['\n']
    | none => aggregated) []

/-! ## Choosing the changes -/

/-- The orders in which the hash maps are visited. -/
structure Visits (Path : Type) where
  paths : List (TrackedPath Path) → List (TrackedPath Path)
  paths_perm : ∀ l, (paths l).Perm l
  origins : List (TrackedPath Path × TrackedPath Path) → List (TrackedPath Path × TrackedPath Path)
  origins_perm : ∀ l, (origins l).Perm l

/-- `Vec::dedup`: of equal neighbours one is left. -/
def dedupNeighbours {α : Type} [DecidableEq α] : List α → List α
  | [] => []
  | [a] => [a]
  | a :: b :: l => if a = b then dedupNeighbours (b :: l) else a :: dedupNeighbours (b :: l)

namespace TurnDiffTracker

/-- The condition of `rename_pairs`: the destination is new, and the origin is gone. -/
def isRename (t : TurnDiffTracker Path) (destPath originPath : TrackedPath Path) : Bool :=
  destPath ≠ originPath ∧
    get originPath t.currentByPath = none ∧
    (get destPath t.currentByPath).isSome ∧
    (get originPath t.baselineByPath).isSome ∧
    get destPath t.baselineByPath = none

/-- `rename_pairs`, from origins to destinations; of two destinations with one origin the
one that is visited last is taken. -/
def renamePairs (t : TurnDiffTracker Path) (visits : Visits Path) :
    List (TrackedPath Path × TrackedPath Path) :=
  (visits.origins t.originByCurrentPath).foldl
    (fun pairs e => if t.isRename e.1 e.2 then insert e.2 e.1 pairs else pairs) []

def change (t : TurnDiffTracker Path) (leftPath rightPath : TrackedPath Path) : Change Path where
  leftPath
  leftContent := get leftPath t.baselineByPath
  rightPath
  rightContent := get rightPath t.currentByPath

/-- The loop of `refresh_unified_diff` over the paths. -/
def changesLoop (t : TurnDiffTracker Path) (pairs : List (TrackedPath Path × TrackedPath Path)) :
    List (TrackedPath Path) → List (TrackedPath Path) → List (Change Path)
  | [], _ => []
  | path :: paths, handled =>
    if path ∈ handled then changesLoop t pairs paths handled
    else if path ∈ pairs.map (·.2) then changesLoop t pairs paths (path :: handled)
    else
      match get path pairs with
      | some destPath =>
        t.change path destPath :: changesLoop t pairs paths (destPath :: path :: handled)
      | none => t.change path path :: changesLoop t pairs paths (path :: handled)

/-- The tracked paths in the order of their names. -/
def paths (services : DiffServices Path) (t : TurnDiffTracker Path) (visits : Visits Path) :
    List (TrackedPath Path) :=
  dedupNeighbours ((visits.paths (t.baselineByPath.map (·.1) ++ t.currentByPath.map (·.1))).insertionSort
    fun a b => services.displayPath a ≤ services.displayPath b)

/-- The changes that the diff shows. -/
def changes (services : DiffServices Path) (t : TurnDiffTracker Path) (visits : Visits Path) :
    List (Change Path) :=
  t.changesLoop (t.renamePairs visits) (t.paths services visits) []

/-- `refresh_unified_diff`; a diff that was rendered for the same revisions is taken again. -/
def refreshUnifiedDiff (services : DiffServices Path) (t : TurnDiffTracker Path)
    (visits : Visits Path) : TurnDiffTracker Path :=
  let rendered := (t.changes services visits).map fun c =>
    (c.key, ((t.renderedDiffs.find? (·.1 = c.key)).map (·.2)).getD (c.render services))
  let aggregated := aggregate (rendered.map (·.2))
  { t with
    renderedDiffs := rendered
    unifiedDiff := if aggregated.isEmpty then none else some aggregated }

def invalidate (t : TurnDiffTracker Path) : TurnDiffTracker Path :=
  { t with valid := false, renderedDiffs := [], unifiedDiff := none }

def trackDelta (services : DiffServices Path) (t : TurnDiffTracker Path) (environmentId : Text)
    (delta : AppliedPatchDelta Path) (visits : Visits Path) : TurnDiffTracker Path :=
  if !t.valid then t
  else if !delta.exact then t.invalidate
  else
    ((delta.changes.map (changeWithin environmentId)).foldl applyChange t).refreshUnifiedDiff
      services visits

end TurnDiffTracker

/-! ## Renames -/

variable {t : TurnDiffTracker Path}

theorem isRename_iff {dest origin : TrackedPath Path} :
    t.isRename dest origin = true ↔ dest ≠ origin ∧
      get origin t.currentByPath = none ∧ (get dest t.currentByPath).isSome ∧
      (get origin t.baselineByPath).isSome ∧ get dest t.baselineByPath = none :=
  decide_eq_true_iff

/-- What the renames are: their origins are gone and their destinations are new, and no two
of them have one destination. -/
structure Pairs (t : TurnDiffTracker Path) (pairs : List (TrackedPath Path × TrackedPath Path)) :
    Prop where
  sorted : SortedMap.Sorted pairs
  isRename : ∀ origin dest, SortedMap.get origin pairs = some dest → t.isRename dest origin = true
  injective : ∀ origin origin' dest, SortedMap.get origin pairs = some dest →
    SortedMap.get origin' pairs = some dest → origin = origin'

/-- The renames of a tracker, whatever order its map is visited in. -/
theorem pairs_renamePairs (hsorted : SortedMap.Sorted t.originByCurrentPath)
    (visits : Visits Path) : Pairs t (t.renamePairs visits) := by
  -- every pair comes from an entry of the map of origins
  have hfold : ∀ (entries pairs : List (TrackedPath Path × TrackedPath Path)),
      SortedMap.Sorted pairs →
      (∀ origin dest, get origin pairs = some dest →
        get dest t.originByCurrentPath = some origin ∧ t.isRename dest origin = true) →
      (∀ e ∈ entries, get e.1 t.originByCurrentPath = some e.2) →
      SortedMap.Sorted (entries.foldl (fun pairs e =>
          if t.isRename e.1 e.2 then insert e.2 e.1 pairs else pairs) pairs) ∧
        ∀ origin dest, get origin (entries.foldl (fun pairs e =>
            if t.isRename e.1 e.2 then insert e.2 e.1 pairs else pairs) pairs) = some dest →
          get dest t.originByCurrentPath = some origin ∧ t.isRename dest origin = true := by
    intro entries
    induction entries with
    | nil => exact fun pairs hpairs hget _ => ⟨hpairs, hget⟩
    | cons e entries ih =>
      intro pairs hpairs hget hentries
      rw [foldl_cons]
      have hrest := fun e' he' => hentries e' (mem_cons_of_mem _ he')
      by_cases hrename : t.isRename e.1 e.2
      · rw [if_pos hrename]
        refine ih _ hpairs.insert (fun origin dest h => ?_) hrest
        by_cases horigin : origin = e.2
        · subst horigin
          obtain rfl := Option.some.inj (get_insert_self.symm.trans h)
          exact ⟨hentries e mem_cons_self, hrename⟩
        · rw [get_insert_of_ne horigin] at h
          exact hget origin dest h
      · rw [if_neg hrename]
        exact ih pairs hpairs hget hrest
  have hentries : ∀ e ∈ visits.origins t.originByCurrentPath,
      get e.1 t.originByCurrentPath = some e.2 :=
    fun e he => get_of_mem hsorted ((visits.origins_perm _).mem_iff.1 he)
  obtain ⟨hpairs, hget⟩ := hfold _ [] List.Pairwise.nil (fun _ _ h => nomatch h) hentries
  refine ⟨hpairs, fun origin dest h => (hget origin dest h).2, fun origin origin' dest h h' => ?_⟩
  exact Option.some.inj ((hget origin dest h).1.symm.trans (hget origin' dest h').1)

/-! ## The chosen changes -/

theorem mem_dedupNeighbours {α : Type} [DecidableEq α] {a : α} {l : List α} :
    a ∈ dedupNeighbours l ↔ a ∈ l := by
  induction l using dedupNeighbours.induct with
  | case1 => rfl
  | case2 => rfl
  | case3 b l ih =>
    rw [dedupNeighbours, if_pos rfl, ih]
    simp
  | case4 b c l hne ih =>
    rw [dedupNeighbours, if_neg hne, mem_cons, ih, ← mem_cons]

variable {path : TrackedPath Path}

theorem mem_paths {services : DiffServices Path} {visits : Visits Path} :
    path ∈ t.paths services visits ↔ t.isTracked path = true := by
  rw [paths, mem_dedupNeighbours, mem_insertionSort, (visits.paths_perm _).mem_iff,
    mem_append, ← isSome_get_iff, ← isSome_get_iff,
    isTracked, Bool.or_eq_true, or_comm]

/-- What the loop chooses: one change for each path that is not handled yet and is no
destination of a rename. -/
theorem changesLoop_spec (t : TurnDiffTracker Path)
    (pairs : List (TrackedPath Path × TrackedPath Path)) (paths handled : List (TrackedPath Path)) :
    ((t.changesLoop pairs paths handled).map (·.leftPath)).Nodup ∧
      (∀ path, path ∈ (t.changesLoop pairs paths handled).map (·.leftPath) ↔
        path ∈ paths ∧ path ∉ handled ∧ path ∉ pairs.map (·.2)) ∧
      ∀ c ∈ t.changesLoop pairs paths handled,
        c = t.change c.leftPath ((get c.leftPath pairs).getD c.leftPath) := by
  induction paths generalizing handled with
  | nil => simp [changesLoop]
  | cons path paths ih =>
    rw [changesLoop]
    by_cases hhandled : path ∈ handled
    · rw [if_pos hhandled]
      obtain ⟨hnodup, hmem, hform⟩ := ih handled
      refine ⟨hnodup, fun q => ?_, hform⟩
      rw [hmem, mem_cons]
      refine ⟨fun h => ⟨Or.inr h.1, h.2⟩, fun h => ⟨h.1.resolve_left ?_, h.2⟩⟩
      rintro rfl
      exact h.2.1 hhandled
    · rw [if_neg hhandled]
      by_cases hdest : path ∈ pairs.map (·.2)
      · rw [if_pos hdest]
        obtain ⟨hnodup, hmem, hform⟩ := ih (path :: handled)
        refine ⟨hnodup, fun q => ?_, hform⟩
        rw [hmem, mem_cons, mem_cons, not_or]
        refine ⟨fun h => ⟨Or.inr h.1, h.2.1.2, h.2.2⟩, fun h => ?_⟩
        have hne : q ≠ path := by
          rintro rfl
          exact h.2.2 hdest
        exact ⟨h.1.resolve_left hne, ⟨hne, h.2.1⟩, h.2.2⟩
      · rw [if_neg hdest]
        -- a path that is handled besides this one is a destination
        have hchosen : ∀ right handled', right = (get path pairs).getD path →
            (∀ q, q ∉ pairs.map (·.2) → (q ∈ handled' ↔ q = path ∨ q ∈ handled)) →
            ((t.change path right :: t.changesLoop pairs paths handled').map (·.leftPath)).Nodup ∧
              (∀ q, q ∈ (t.change path right :: t.changesLoop pairs paths handled').map (·.leftPath) ↔
                q ∈ path :: paths ∧ q ∉ handled ∧ q ∉ pairs.map (·.2)) ∧
              ∀ c ∈ t.change path right :: t.changesLoop pairs paths handled',
                c = t.change c.leftPath ((get c.leftPath pairs).getD c.leftPath) := by
          intro right handled' hright hhandled'
          obtain ⟨hnodup, hmem, hform⟩ := ih handled'
          refine ⟨?_, fun q => ?_, ?_⟩
          · rw [map_cons, nodup_cons]
            refine ⟨fun h => ?_, hnodup⟩
            exact ((hmem path).1 h).2.1 ((hhandled' path hdest).2 (Or.inl rfl))
          · rw [map_cons, mem_cons, hmem, mem_cons]
            constructor
            · rintro (rfl | ⟨hq, hq', hqdest⟩)
              · exact ⟨Or.inl rfl, hhandled, hdest⟩
              · rw [hhandled' q hqdest, not_or] at hq'
                exact ⟨Or.inr hq, hq'.2, hqdest⟩
            · rintro ⟨hq, hq', hqdest⟩
              by_cases hqpath : q = path
              · exact Or.inl hqpath
              · refine Or.inr ⟨hq.resolve_left hqpath, ?_, hqdest⟩
                rw [hhandled' q hqdest, not_or]
                exact ⟨hqpath, hq'⟩
          · intro c hc
            rcases mem_cons.1 hc with rfl | hc
            · rw [hright]
              rfl
            · exact hform c hc
        cases hget : get path pairs with
        | none =>
          refine hchosen path (path :: handled) (by rw [hget]; rfl) fun q _ => ?_
          exact mem_cons
        | some destPath =>
          refine hchosen destPath (destPath :: path :: handled) (by rw [hget]; rfl) fun q hq => ?_
          have hne : q ≠ destPath := by
            rintro rfl
            exact hq (mem_map.2 ⟨_, mem_of_get hget, rfl⟩)
          rw [mem_cons, mem_cons, or_iff_right hne]

/-- The change has to do with the path. -/
def Change.Mentions (c : Change Path) (path : TrackedPath Path) : Prop :=
  path = c.leftPath ∨ path = c.rightPath

/-- The files after a change. -/
def Change.apply (F : Files (TrackedPath Path)) (c : Change Path) : Files (TrackedPath Path) :=
  Function.update (Function.update F c.leftPath none) c.rightPath (c.rightContent.map (·.content))

variable (F : Files (TrackedPath Path))

theorem Change.apply_rightPath (c : Change Path) :
    c.apply F c.rightPath = c.rightContent.map (·.content) :=
  Function.update_self ..

variable {c : Change Path}

theorem Change.apply_leftPath (h : c.leftPath ≠ c.rightPath) : c.apply F c.leftPath = none :=
  (Function.update_of_ne h ..).trans (Function.update_self ..)

/-- What a change makes of its paths does not depend on what was there. -/
theorem Change.apply_of_mentions (F' : Files (TrackedPath Path)) (h : c.Mentions path) :
    c.apply F path = c.apply F' path := by
  by_cases hright : path = c.rightPath
  · rw [hright, c.apply_rightPath, c.apply_rightPath]
  · obtain rfl := h.resolve_right hright
    rw [Change.apply_leftPath F hright, Change.apply_leftPath F' hright]

/-- The files after the changes. -/
def applyChanges (F : Files (TrackedPath Path)) (changes : List (Change Path)) :
    Files (TrackedPath Path) :=
  changes.foldl Change.apply F

/-- No path has to do with two of the changes. -/
def MentionOnce (changes : List (Change Path)) : Prop :=
  changes.Pairwise fun c c' => ∀ path, ¬ (c.Mentions path ∧ c'.Mentions path)

theorem applyChanges_of_not_mentioned {changes : List (Change Path)}
    (h : ∀ c ∈ changes, ¬ c.Mentions path) : applyChanges F changes path = F path := by
  induction changes generalizing F with
  | nil => rfl
  | cons c changes ih =>
    have hc := h c mem_cons_self
    rw [Change.Mentions, not_or] at hc
    have hrest : applyChanges (c.apply F) changes path = c.apply F path :=
      ih (c.apply F) fun c' hc' => h c' (mem_cons_of_mem _ hc')
    rw [Change.apply, Function.update_of_ne hc.2, Function.update_of_ne hc.1] at hrest
    exact hrest

/-- A path that one change mentions is left as that change leaves it. -/
theorem applyChanges_of_mentioned {changes : List (Change Path)} (honce : MentionOnce changes)
    (hc : c ∈ changes) (hpath : c.Mentions path) :
    applyChanges F changes path = c.apply F path := by
  induction changes generalizing F with
  | nil => cases hc
  | cons c₁ changes ih =>
    obtain ⟨hfirst, hrest⟩ := pairwise_cons.1 honce
    rcases mem_cons.1 hc with rfl | hc
    · exact applyChanges_of_not_mentioned _ fun c' hc' h => hfirst c' hc' path ⟨hpath, h⟩
    · exact (ih (c₁.apply F) hrest hc).trans (Change.apply_of_mentions _ _ hpath)

section
variable {services : DiffServices Path} {t : TurnDiffTracker Path} {visits : Visits Path}

/-- A change stands for one path, or for a rename. -/
theorem change_cases {c : Change Path} (hc : c ∈ t.changes services visits) :
    c = t.change c.leftPath c.rightPath ∧ t.isTracked c.leftPath = true ∧
      c.leftPath ∉ (t.renamePairs visits).map (·.2) ∧
      (c.rightPath = c.leftPath ∨
        get c.leftPath (t.renamePairs visits) = some c.rightPath) := by
  obtain ⟨-, hmem, hform⟩ := changesLoop_spec t (t.renamePairs visits) (t.paths services visits) []
  obtain ⟨hpath, -, hdest⟩ := (hmem c.leftPath).1 (mem_map.2 ⟨c, hc, rfl⟩)
  have hc' := hform c hc
  have hright : c.rightPath = (get c.leftPath (t.renamePairs visits)).getD c.leftPath :=
    congrArg Change.rightPath hc'
  refine ⟨hright ▸ hc', mem_paths.1 hpath, hdest, ?_⟩
  cases hget : get c.leftPath (t.renamePairs visits) with
  | none =>
    rw [hget] at hright
    exact Or.inl hright
  | some dest =>
    rw [hget] at hright
    exact Or.inr (congrArg some hright.symm)

theorem mem_dests_of_get {origin dest : TrackedPath Path}
    {pairs : List (TrackedPath Path × TrackedPath Path)} (h : get origin pairs = some dest) :
    dest ∈ pairs.map (·.2) :=
  mem_map.2 ⟨_, mem_of_get h, rfl⟩

/-- Changes that mention one path have one left path. -/
theorem leftPath_eq_of_mentions (hpairs : Pairs t (t.renamePairs visits)) {c c' : Change Path}
    (hc : c ∈ t.changes services visits) (hc' : c' ∈ t.changes services visits)
    {path : TrackedPath Path} (h : c.Mentions path) (h' : c'.Mentions path) :
    c.leftPath = c'.leftPath := by
  obtain ⟨-, -, hdest, hright⟩ := change_cases hc
  obtain ⟨-, -, hdest', hright'⟩ := change_cases hc'
  -- a right path is the left path of its change, or a destination, which no left path is
  have hcases : ∀ {c : Change Path}, c.Mentions path →
      (c.rightPath = c.leftPath ∨
        get c.leftPath (t.renamePairs visits) = some c.rightPath) →
      path = c.leftPath ∨ get c.leftPath (t.renamePairs visits) = some path := by
    rintro c (hleft | hpath) hright
    · exact Or.inl hleft
    · rw [hpath]
      exact hright
  rcases hcases h hright with rfl | hget <;> rcases hcases h' hright' with hleft' | hget'
  · exact hleft'
  · exact absurd (mem_dests_of_get hget') hdest
  · subst hleft'
    exact absurd (mem_dests_of_get hget) hdest'
  · exact hpairs.injective _ _ path hget hget'

theorem mentionOnce_changes (hpairs : Pairs t (t.renamePairs visits)) :
    MentionOnce (t.changes services visits) := by
  obtain ⟨hnodup, -, -⟩ := changesLoop_spec t (t.renamePairs visits) (t.paths services visits) []
  have hdistinct : (t.changes services visits).Pairwise (·.leftPath ≠ ·.leftPath) :=
    pairwise_map.1 hnodup
  refine hdistinct.imp_of_mem fun hc hc' hne path h => ?_
  exact hne (leftPath_eq_of_mentions hpairs hc hc' h.1 h.2)

/-- Every tracked path is mentioned by a change. -/
theorem exists_change_mentions (hpairs : Pairs t (t.renamePairs visits)) {path : TrackedPath Path}
    (htracked : t.isTracked path = true) : ∃ c ∈ t.changes services visits, c.Mentions path := by
  obtain ⟨-, hmem, hform⟩ := changesLoop_spec t (t.renamePairs visits) (t.paths services visits) []
  by_cases hdest : path ∈ (t.renamePairs visits).map (·.2)
  · -- the change of the origin
    obtain ⟨⟨origin, dest⟩, hpair, rfl⟩ := mem_map.1 hdest
    have hget := get_of_mem hpairs.sorted hpair
    obtain ⟨-, hgone, -, hbaseline, -⟩ := isRename_iff.1 (hpairs.isRename origin dest hget)
    have horigin : origin ∉ (t.renamePairs visits).map (·.2) := by
      intro h
      obtain ⟨⟨origin', dest'⟩, hpair', hdest'⟩ := mem_map.1 h
      obtain ⟨-, -, hthere, -⟩ := isRename_iff.1
        (hpairs.isRename origin' dest' (get_of_mem hpairs.sorted hpair'))
      obtain rfl : dest' = origin := hdest'
      rw [hgone] at hthere
      cases hthere
    have htracked' : t.isTracked origin = true := by
      rw [isTracked, hbaseline, Bool.or_true]
    obtain ⟨c, hc, rfl⟩ :=
      mem_map.1 ((hmem origin).2 ⟨mem_paths.2 htracked', not_mem_nil, horigin⟩)
    refine ⟨c, hc, Or.inr ?_⟩
    have hright : c.rightPath = (get c.leftPath (t.renamePairs visits)).getD c.leftPath :=
      congrArg Change.rightPath (hform c hc)
    rw [hright, hget, Option.getD_some]
  · obtain ⟨c, hc, rfl⟩ :=
      mem_map.1 ((hmem path).2 ⟨mem_paths.2 htracked, not_mem_nil, hdest⟩)
    exact ⟨c, hc, Or.inl rfl⟩

end

/-! ## The changes and the files -/

section
variable {services : DiffServices Path} {t : TurnDiffTracker Path} {visits : Visits Path}
  {F₀ F : Files (TrackedPath Path)}

theorem Tracks.of_isTracked (h : Tracks F₀ F t) {path : TrackedPath Path}
    (htracked : t.isTracked path = true) :
    F₀ path = t.baselineContent path ∧ F path = t.currentContent path := by
  rcases h path with hcontents | ⟨hnot, -⟩
  · exact hcontents
  · exact absurd (htracked.symm.trans hnot) nofun

/-- The two sides of a change are the files before and after; a rename has a path that is
gone and one that is new. -/
theorem change_contents (h : Tracks F₀ F t) (hpairs : Pairs t (t.renamePairs visits))
    {c : Change Path} (hc : c ∈ t.changes services visits) :
    c.leftContent.map (·.content) = F₀ c.leftPath ∧ c.rightContent.map (·.content) = F c.rightPath ∧
      (c.leftPath ≠ c.rightPath → F c.leftPath = none ∧ F₀ c.rightPath = none) := by
  obtain ⟨hform, htracked, -, hright⟩ := change_cases hc
  have hleft : c.leftContent.map (·.content) = t.baselineContent c.leftPath := by rw [hform]; rfl
  have hright' : c.rightContent.map (·.content) = t.currentContent c.rightPath := by rw [hform]; rfl
  obtain ⟨hbefore, hafter⟩ := h.of_isTracked htracked
  refine ⟨hleft.trans hbefore.symm, ?_⟩
  rw [hright']
  rcases hright with hsame | hget
  · rw [hsame]
    exact ⟨hafter.symm, fun hne => absurd rfl hne⟩
  · obtain ⟨-, hgone, hthere, -, hnew⟩ := isRename_iff.1 (hpairs.isRename _ _ hget)
    have htracked' : t.isTracked c.rightPath = true := by
      rw [isTracked, hthere, Bool.true_or]
    obtain ⟨hbefore', hafter'⟩ := h.of_isTracked htracked'
    refine ⟨hafter'.symm, fun _ => ⟨?_, ?_⟩⟩
    · rw [hafter, currentContent, hgone, Option.map_none]
    · rw [hbefore', baselineContent, hnew, Option.map_none]

theorem isTracked_of_mentions (hpairs : Pairs t (t.renamePairs visits)) {c : Change Path}
    (hc : c ∈ t.changes services visits) {path : TrackedPath Path} (hpath : c.Mentions path) :
    t.isTracked path = true := by
  obtain ⟨-, htracked, -, hright⟩ := change_cases hc
  rcases hpath with rfl | rfl
  · exact htracked
  · rcases hright with hsame | hget
    · rw [hsame]
      exact htracked
    · obtain ⟨-, -, hthere, -⟩ := isRename_iff.1 (hpairs.isRename _ _ hget)
      rw [isTracked, hthere, Bool.true_or]

/-- **The changes lead from the first files to the current ones.** -/
theorem applyChanges_changes (h : Tracks F₀ F t) (hpairs : Pairs t (t.renamePairs visits)) :
    applyChanges F₀ (t.changes services visits) = F := by
  funext path
  cases htracked : t.isTracked path with
  | true =>
    obtain ⟨c, hc, hpath⟩ := exists_change_mentions hpairs htracked
    obtain ⟨-, hright, hrename⟩ := change_contents h hpairs hc
    rw [applyChanges_of_mentioned F₀ (mentionOnce_changes hpairs) hc hpath]
    by_cases hpath' : path = c.rightPath
    · rw [hpath', c.apply_rightPath, hright]
    · obtain rfl := hpath.resolve_right hpath'
      rw [Change.apply_leftPath F₀ hpath', (hrename hpath').1]
  | false =>
    have hnone : ∀ c ∈ t.changes services visits, ¬ c.Mentions path := by
      intro c hc hpath
      exact absurd ((isTracked_of_mentions hpairs hc hpath).symm.trans htracked) nofun
    rw [applyChanges_of_not_mentioned F₀ hnone]
    rcases h path with ⟨hbefore, hafter⟩ | ⟨-, hsame⟩
    · obtain ⟨hnone, hnone'⟩ := (t.isTracked_eq_false path).1 htracked
      rw [hbefore, hafter, hnone, hnone']
    · exact hsame

end

/-! ## Diffs that are kept -/

/-- The content that a revision stands for; without a revision there is no file. -/
def contentAt (contents : List Text) : Option ℕ → Option (Option Text)
  | none => some none
  | some revision => contents[revision]?.map some

/-- **The revisions**: each stands for one of the contents seen so far, and a kept diff is
the one of the contents that its revisions stand for. -/
structure Recalls (services : DiffServices Path) (contents : List Text) (t : TurnDiffTracker Path) :
    Prop where
  next : t.nextRevision = contents.length
  baseline : ∀ path c, SortedMap.get path t.baselineByPath = some c →
    contents[c.revision]? = some c.content
  current : ∀ path c, SortedMap.get path t.currentByPath = some c →
    contents[c.revision]? = some c.content
  rendered : ∀ e ∈ t.renderedDiffs, ∃ left right,
    contentAt contents e.1.leftRevision = some left ∧
    contentAt contents e.1.rightRevision = some right ∧
    e.2 = renderDiff services e.1.leftPath left e.1.rightPath right

section
variable {services : DiffServices Path} {contents : List Text} {t : TurnDiffTracker Path}

theorem contentAt_append {revision : Option ℕ} {content : Option Text}
    (h : contentAt contents revision = some content) (more : List Text) :
    contentAt (contents ++ more) revision = some content := by
  cases revision with
  | none => exact h
  | some revision =>
    obtain ⟨text, htext, rfl⟩ := Option.map_eq_some_iff.1 h
    rw [contentAt, List.getElem?_append_left (List.getElem?_eq_some_iff.1 htext).1, htext]
    rfl

theorem recalls_new (services : DiffServices Path) : Recalls services [] ({} : TurnDiffTracker Path) :=
  ⟨rfl, fun _ _ h => (nomatch h), fun _ _ h => (nomatch h), fun _ h => (nomatch h)⟩

theorem getElem?_append_of_eq_some {revision : ℕ} {content : Text}
    (h : contents[revision]? = some content) (more : List Text) :
    (contents ++ more)[revision]? = some content := by
  rw [List.getElem?_append_left (List.getElem?_eq_some_iff.1 h).1, h]

theorem Recalls.insert (h : Recalls services contents t) (content : Text)
    {m : List (TrackedPath Path × TrackedContent)}
    (hm : ∀ path c, get path m = some c → contents[c.revision]? = some c.content)
    (path : TrackedPath Path) :
    ∀ path' c, get path' (insert path ⟨content, t.nextRevision⟩ m) = some c →
      (contents ++ [content])[c.revision]? = some c.content := by
  intro path' c hc
  by_cases hpath : path' = path
  · subst hpath
    obtain rfl := Option.some.inj (get_insert_self.symm.trans hc)
    rw [h.next]
    exact getElem?_concat_length
  · rw [get_insert_of_ne hpath] at hc
    exact getElem?_append_of_eq_some (hm path' c hc) _

/-- Kept diffs stay right when more contents are seen. -/
theorem Recalls.rendered_append (h : Recalls services contents t) (more : List Text) :
    ∀ e ∈ t.renderedDiffs, ∃ left right,
      contentAt (contents ++ more) e.1.leftRevision = some left ∧
      contentAt (contents ++ more) e.1.rightRevision = some right ∧
      e.2 = renderDiff services e.1.leftPath left e.1.rightPath right := by
  intro e he
  obtain ⟨left, right, hleft, hright, hrendered⟩ := h.rendered e he
  exact ⟨left, right, contentAt_append hleft more, contentAt_append hright more, hrendered⟩

theorem Recalls.insertCurrent (h : Recalls services contents t) (path : TrackedPath Path)
    (content : Text) : Recalls services (contents ++ [content]) (t.insertCurrent path content) where
  next := by
    rw [length_append, length_singleton, ← h.next]
    rfl
  baseline := fun path' c hc => getElem?_append_of_eq_some (h.baseline path' c hc) _
  current := h.insert content h.current path
  rendered := h.rendered_append _

/-- A baseline is recalled by its revision. -/
theorem Recalls.noteBaseline (h : Recalls services contents t) (path : TrackedPath Path)
    (content : Option Text) : ∃ contents, Recalls services contents (t.noteBaseline path content) := by
  cases content with
  | none => exact ⟨contents, h⟩
  | some content =>
    rw [TurnDiffTracker.noteBaseline]
    split_ifs
    · exact ⟨contents, h⟩
    · refine ⟨contents ++ [content], ?_, h.insert content h.baseline path, fun path' c hc => ?_,
        h.rendered_append _⟩
      · rw [length_append, length_singleton, ← h.next]
      · exact getElem?_append_of_eq_some (h.current path' c hc) _

theorem Recalls.removeCurrent (h : Recalls services contents t) (path : TrackedPath Path) :
    Recalls services contents (t.removeCurrent path) :=
  ⟨h.next, h.baseline, fun path' c hc => h.current path' c (get_of_get_erase hc), h.rendered⟩

/-- Revisions stay the names of contents under every change. -/
theorem Recalls.applyChange (h : Recalls services contents t)
    (c : AppliedPatchChange (TrackedPath Path)) :
    ∃ contents, Recalls services contents (t.applyChange c) := by
  obtain ⟨path, change⟩ := c
  cases change with
  | add content overwrittenContent =>
    have hbefore : Recalls services contents (t.removeOrigin path) :=
      ⟨h.next, h.baseline, h.current, h.rendered⟩
    obtain ⟨contents₁, h₁⟩ := hbefore.noteBaseline path overwrittenContent
    exact ⟨_, h₁.insertCurrent path content⟩
  | delete content =>
    obtain ⟨contents₁, h₁⟩ := h.noteBaseline path (some content)
    have h₂ := h₁.removeCurrent path
    exact ⟨contents₁, h₂.next, h₂.baseline, h₂.current, h₂.rendered⟩
  | update movePath oldContent overwrittenMoveContent newContent =>
    obtain ⟨contents₁, h₁⟩ := h.noteBaseline path (some oldContent)
    cases movePath with
    | none => exact ⟨_, h₁.insertCurrent path newContent⟩
    | some destPath =>
      obtain ⟨contents₂, h₂⟩ := h₁.noteBaseline destPath overwrittenMoveContent
      have h₃ := (h₂.removeCurrent path).insertCurrent destPath newContent
      refine ⟨contents₂ ++ [newContent], ?_⟩
      show Recalls services _
        (t.applyUpdate path (some destPath) oldContent overwrittenMoveContent newContent)
      unfold TurnDiffTracker.applyUpdate
      dsimp only
      split_ifs
      · exact ⟨h₃.next, h₃.baseline, h₃.current, h₃.rendered⟩
      · exact ⟨h₃.next, h₃.baseline, h₃.current, h₃.rendered⟩

/-- The key of a change names its two contents. -/
theorem Recalls.contentAt_key (h : Recalls services contents t) (left right : TrackedPath Path) :
    contentAt contents (t.change left right).key.leftRevision = some (t.baselineContent left) ∧
      contentAt contents (t.change left right).key.rightRevision = some (t.currentContent right) := by
  constructor
  · show contentAt contents ((get left t.baselineByPath).map (·.revision)) = _
    rw [baselineContent]
    cases hget : get left t.baselineByPath with
    | none => rfl
    | some c =>
      rw [Option.map_some, contentAt, h.baseline left c hget]
      rfl
  · show contentAt contents ((get right t.currentByPath).map (·.revision)) = _
    rw [currentContent]
    cases hget : get right t.currentByPath with
    | none => rfl
    | some c =>
      rw [Option.map_some, contentAt, h.current right c hget]
      rfl

/-- A diff that is taken again is the one that would be rendered. -/
theorem Recalls.kept_eq_render (h : Recalls services contents t) (left right : TrackedPath Path) :
    ((t.renderedDiffs.find? (·.1 = (t.change left right).key)).map (·.2)).getD
      ((t.change left right).render services) = (t.change left right).render services := by
  cases hfind : t.renderedDiffs.find? (·.1 = (t.change left right).key) with
  | none => rfl
  | some e =>
    have hkey : e.1 = (t.change left right).key := of_decide_eq_true (find?_some hfind :)
    obtain ⟨left', right', hleft, hright, hrendered⟩ := h.rendered e (mem_of_find?_eq_some hfind)
    obtain ⟨hleft', hright'⟩ := h.contentAt_key left right
    rw [hkey] at hleft hright hrendered
    rw [Option.map_some, Option.getD_some, hrendered, Option.some.inj (hleft.symm.trans hleft'),
      Option.some.inj (hright.symm.trans hright')]
    rfl

/-- The changes as one text, if there is anything to show. -/
def diffText (services : DiffServices Path) (changes : List (Change Path)) : Option Text :=
  let aggregated := aggregate (changes.map (·.render services))
  if aggregated.isEmpty then none else some aggregated

/-- **The diff is rendered from the changes**, whatever is taken again. -/
theorem Recalls.refreshUnifiedDiff (h : Recalls services contents t) (visits : Visits Path) :
    Recalls services contents (t.refreshUnifiedDiff services visits) ∧
      (t.refreshUnifiedDiff services visits).unifiedDiff =
        diffText services (t.changes services visits) := by
  have hkept : ∀ c ∈ t.changes services visits,
      ((t.renderedDiffs.find? (·.1 = c.key)).map (·.2)).getD (c.render services) = c.render services := by
    intro c hc
    obtain ⟨hform, -⟩ := change_cases hc
    rw [hform]
    exact h.kept_eq_render _ _
  refine ⟨⟨h.next, h.baseline, h.current, fun e he => ?_⟩, ?_⟩
  · obtain ⟨c, hc, rfl⟩ := mem_map.1 he
    obtain ⟨hform, -⟩ := change_cases hc
    obtain ⟨hleft, hright⟩ := h.contentAt_key c.leftPath c.rightPath
    rw [← hform] at hleft hright
    refine ⟨_, _, hleft, hright, ?_⟩
    rw [hkept c hc, hform]
    rfl
  · have hsame : ((t.changes services visits).map fun c =>
        (c.key, ((t.renderedDiffs.find? (·.1 = c.key)).map (·.2)).getD (c.render services))).map (·.2) =
          (t.changes services visits).map (·.render services) := by
      rw [map_map]
      exact map_congr_left hkept
    rw [TurnDiffTracker.refreshUnifiedDiff, diffText]
    rw [hsame]

end

/-! ## Turns -/

/-- A delta of an environment, and the orders in which the maps are visited after it. -/
structure TurnDelta (Path : Type) where
  environmentId : Text
  delta : AppliedPatchDelta Path
  visits : Visits Path

/-- The changes of a turn in order. -/
def turnChanges (deltas : List (TurnDelta Path)) : List (AppliedPatchChange (TrackedPath Path)) :=
  deltas.flatMap fun d => d.delta.changes.map (changeWithin d.environmentId)

/-- The tracker after the deltas of a turn. -/
def trackTurn (services : DiffServices Path) (t : TurnDiffTracker Path)
    (deltas : List (TurnDelta Path)) : TurnDiffTracker Path :=
  deltas.foldl (fun t d => t.trackDelta services d.environmentId d.delta d.visits) t

/-- The tracker between two deltas. -/
structure InTurn (services : DiffServices Path) (F₀ F : Files (TrackedPath Path))
    (t : TurnDiffTracker Path) : Prop where
  valid : t.valid = true
  tracks : Tracks F₀ F t
  sorted : SortedMap.Sorted t.originByCurrentPath
  recalls : ∃ contents, Recalls services contents t
  unifiedDiff : ∃ visits, t.unifiedDiff = diffText services (t.changes services visits)

section
variable {services : DiffServices Path} {t : TurnDiffTracker Path} {F₀ F : Files (TrackedPath Path)}

theorem noteBaseline_frame (t : TurnDiffTracker Path) (path : TrackedPath Path)
    (content : Option Text) : (t.noteBaseline path content).valid = t.valid ∧
      (t.noteBaseline path content).originByCurrentPath = t.originByCurrentPath := by
  cases content with
  | none => exact ⟨rfl, rfl⟩
  | some content =>
    rw [noteBaseline]
    split_ifs <;> exact ⟨rfl, rfl⟩

/-- A change keeps the tracker valid and the map of origins in order. -/
theorem applyChange_frame (hsorted : SortedMap.Sorted t.originByCurrentPath)
    (c : AppliedPatchChange (TrackedPath Path)) :
    (t.applyChange c).valid = t.valid ∧ SortedMap.Sorted (t.applyChange c).originByCurrentPath := by
  obtain ⟨path, change⟩ := c
  cases change with
  | add content overwrittenContent =>
    obtain ⟨hvalid, horigin⟩ := noteBaseline_frame (t.removeOrigin path) path overwrittenContent
    refine ⟨hvalid, ?_⟩
    show SortedMap.Sorted ((t.removeOrigin path).noteBaseline path overwrittenContent).originByCurrentPath
    rw [horigin]
    exact hsorted.erase
  | delete content =>
    obtain ⟨hvalid, horigin⟩ := noteBaseline_frame t path (some content)
    refine ⟨hvalid, ?_⟩
    show SortedMap.Sorted (erase path (t.noteBaseline path (some content)).originByCurrentPath)
    rw [horigin]
    exact hsorted.erase
  | update movePath oldContent overwrittenMoveContent newContent =>
    obtain ⟨hvalid, horigin⟩ := noteBaseline_frame t path (some oldContent)
    cases movePath with
    | none =>
      refine ⟨hvalid, ?_⟩
      show SortedMap.Sorted (t.noteBaseline path (some oldContent)).originByCurrentPath
      rw [horigin]
      exact hsorted
    | some destPath =>
      obtain ⟨hvalid', horigin'⟩ := noteBaseline_frame (t.noteBaseline path (some oldContent)) destPath
        overwrittenMoveContent
      have hsorted' : SortedMap.Sorted ((t.noteBaseline path (some oldContent)).noteBaseline destPath
          overwrittenMoveContent).originByCurrentPath := by
        rw [horigin', horigin]
        exact hsorted
      show (t.applyUpdate path (some destPath) oldContent overwrittenMoveContent newContent).valid = _ ∧
        SortedMap.Sorted (t.applyUpdate path (some destPath) oldContent overwrittenMoveContent
          newContent).originByCurrentPath
      unfold TurnDiffTracker.applyUpdate
      dsimp only
      split_ifs
      · exact ⟨hvalid'.trans hvalid, hsorted'.erase.erase.insert⟩
      · exact ⟨hvalid'.trans hvalid, hsorted'.erase.erase⟩

/-- Changes keep a tracker valid, its map sorted and its revisions known. -/
theorem applyChanges_frame (changes : List (AppliedPatchChange (TrackedPath Path)))
    (hvalid : t.valid = true) (hsorted : SortedMap.Sorted t.originByCurrentPath)
    (hrecalls : ∃ contents, Recalls services contents t) :
    (changes.foldl applyChange t).valid = true ∧
      SortedMap.Sorted (changes.foldl applyChange t).originByCurrentPath ∧
      ∃ contents, Recalls services contents (changes.foldl applyChange t) := by
  induction changes generalizing t with
  | nil => exact ⟨hvalid, hsorted, hrecalls⟩
  | cons c changes ih =>
    obtain ⟨hvalid', hsorted'⟩ := applyChange_frame hsorted c
    obtain ⟨contents, hrecalls⟩ := hrecalls
    exact ih (hvalid'.trans hvalid) hsorted' (hrecalls.applyChange c)

theorem changesLoop_congr {t' : TurnDiffTracker Path} (h : ∀ left right, t'.change left right = t.change left right)
    (pairs : List (TrackedPath Path × TrackedPath Path)) (paths handled : List (TrackedPath Path)) :
    t'.changesLoop pairs paths handled = t.changesLoop pairs paths handled := by
  induction paths generalizing handled with
  | nil => rfl
  | cons path paths ih =>
    rw [changesLoop, changesLoop, ih, ih]
    simp only [h, ih]

theorem changes_refreshUnifiedDiff (visits visits' : Visits Path) :
    (t.refreshUnifiedDiff services visits).changes services visits' = t.changes services visits' := by
  have hchange : ∀ left right,
      (t.refreshUnifiedDiff services visits).change left right = t.change left right :=
    fun _ _ => rfl
  exact changesLoop_congr hchange _ _ _

/-- **The step lemma**: a delta that is exact and consistent with the files. -/
theorem InTurn.trackDelta (h : InTurn services F₀ F t) {d : TurnDelta Path}
    (hexact : d.delta.exact = true)
    (hchanges : Consistent F (d.delta.changes.map (changeWithin d.environmentId))) :
    InTurn services F₀ (replay F (d.delta.changes.map (changeWithin d.environmentId)))
      (t.trackDelta services d.environmentId d.delta d.visits) := by
  obtain ⟨hvalid, hsorted, contents, hrecalls⟩ :=
    applyChanges_frame (d.delta.changes.map (changeWithin d.environmentId)) h.valid h.sorted h.recalls
  obtain ⟨hrecalls', hdiff⟩ := hrecalls.refreshUnifiedDiff d.visits
  rw [TurnDiffTracker.trackDelta, if_neg (by simp [h.valid]), if_neg (by simp [hexact])]
  refine ⟨hvalid, h.tracks.applyChanges hchanges, hsorted, ⟨contents, hrecalls'⟩, d.visits, ?_⟩
  rw [hdiff, changes_refreshUnifiedDiff]

theorem consistent_append {F : Files (TrackedPath Path)}
    {a b : List (AppliedPatchChange (TrackedPath Path))} :
    Consistent F (a ++ b) ↔ Consistent F a ∧ Consistent (replay F a) b := by
  induction a generalizing F with
  | nil => exact (and_iff_right trivial).symm
  | cons c a ih =>
    rw [cons_append, Consistent, Consistent, ih, and_assoc]
    rfl

/-- The tracker follows a turn. -/
theorem InTurn.trackTurn (h : InTurn services F₀ F t) {deltas : List (TurnDelta Path)}
    (hexact : ∀ d ∈ deltas, d.delta.exact = true) (hchanges : Consistent F (turnChanges deltas)) :
    InTurn services F₀ (replay F (turnChanges deltas)) (trackTurn services t deltas) := by
  induction deltas generalizing F t with
  | nil => exact h
  | cons d deltas ih =>
    rw [turnChanges, flatMap_cons] at hchanges ⊢
    rw [consistent_append] at hchanges
    rw [replay, foldl_append]
    refine ih (h.trackDelta (hexact d mem_cons_self) hchanges.1)
      (fun d' hd' => hexact d' (mem_cons_of_mem _ hd')) hchanges.2

end

/-- The maps visited as they are. -/
def Visits.inOrder (Path : Type) : Visits Path where
  paths := id
  paths_perm := fun _ => List.Perm.refl _
  origins := id
  origins_perm := fun _ => List.Perm.refl _

variable (services : DiffServices Path)

theorem inTurn_new (F : Files (TrackedPath Path)) : InTurn services F F {} := by
  refine ⟨rfl, tracks_new F, List.Pairwise.nil, ⟨[], recalls_new services⟩, Visits.inOrder Path, ?_⟩
  have hpaths : ({} : TurnDiffTracker Path).paths services (Visits.inOrder Path) = [] := by
    refine eq_nil_iff_forall_not_mem.2 fun path hpath => ?_
    exact absurd (mem_paths.1 hpath) nofun
  rw [changes, hpaths]
  rfl

omit [LinearOrder Path] in
/-- A change is not shown where its contents are the same. -/
theorem Change.render_eq_none_iff (c : Change Path) :
    c.render services = none ↔
      c.leftContent.map (·.content) = c.rightContent.map (·.content) := by
  rw [Change.render]
  unfold renderDiff
  constructor
  · intro h
    by_contra hne
    rw [if_neg hne] at h
    cases h
  · exact fun h => if_pos h

/-- **The changes after any turn** of exact deltas that are consistent with files touched by
nothing else, whatever the orders in which the hash maps are visited.  The changes mention
every tracked path once, and no other path; their sides are the files at the beginning of
the turn and those of now; where the two paths of a change differ, the first is gone and
the second is new; applied to the first files the changes give the current ones.  The diff
is rendered from them, except for those whose two contents are the same. -/
theorem changes_of_turn (services : DiffServices Path) (F₀ : Files (TrackedPath Path))
    (deltas : List (TurnDelta Path)) (hexact : ∀ d ∈ deltas, d.delta.exact = true)
    (hchanges : Consistent F₀ (turnChanges deltas)) :
    let t := trackTurn services {} deltas
    let F := replay F₀ (turnChanges deltas)
    (∃ visits, t.unifiedDiff = diffText services (t.changes services visits)) ∧
    ∀ visits,
      MentionOnce (t.changes services visits) ∧
      (∀ path, t.isTracked path = true ↔ ∃ c ∈ t.changes services visits, c.Mentions path) ∧
      (∀ c ∈ t.changes services visits,
        c.leftContent.map (·.content) = F₀ c.leftPath ∧
        c.rightContent.map (·.content) = F c.rightPath ∧
        (c.leftPath ≠ c.rightPath → F c.leftPath = none ∧ F₀ c.rightPath = none) ∧
        (c.render services = none ↔ F₀ c.leftPath = F c.rightPath)) ∧
      applyChanges F₀ (t.changes services visits) = F := by
  intro t F
  have h : InTurn services F₀ F t := (inTurn_new services F₀).trackTurn hexact hchanges
  refine ⟨h.unifiedDiff, fun visits => ?_⟩
  have hpairs := pairs_renamePairs h.sorted visits
  refine ⟨mentionOnce_changes hpairs, fun path => ?_, fun c hc => ?_,
    applyChanges_changes h.tracks hpairs⟩
  · constructor
    · exact exists_change_mentions hpairs
    · rintro ⟨c, hc, hpath⟩
      exact isTracked_of_mentions hpairs hc hpath
  · obtain ⟨hleft, hright, hrename⟩ := change_contents h.tracks hpairs hc
    refine ⟨hleft, hright, hrename, ?_⟩
    rw [c.render_eq_none_iff, hleft, hright]

/-- One file, and a delta that moves it and gives it a content. -/
def oneFile : Files (TrackedPath ℕ) := fun path => if path = toLex ([], 0) then some ['x'] else none

def moveDelta (newContent : Text) : TurnDelta ℕ where
  environmentId := []
  delta := ⟨[⟨0, .update (some 1) ['x'] none newContent⟩], true⟩
  visits := Visits.inOrder ℕ

def plainServices : DiffServices ℕ where
  displayPath := fun _ => []
  gitBlobOid := fun _ => []
  unifiedDiff := fun _ _ _ _ => []

theorem changes_of_turn_move :
    let t := trackTurn plainServices {} [moveDelta ['y']]
    applyChanges oneFile (t.changes plainServices (Visits.inOrder ℕ)) =
      replay oneFile (turnChanges [moveDelta ['y']]) :=
  ((changes_of_turn plainServices oneFile [moveDelta ['y']] (by decide)
    ⟨⟨rfl, rfl⟩, trivial⟩).2 (Visits.inOrder ℕ)).2.2.2

/-- A file that was moved and has its old content is not shown. -/
theorem pure_rename_is_not_shown :
    Consistent oneFile (turnChanges [moveDelta ['x']]) ∧
      (trackTurn plainServices {} [moveDelta ['x']]).unifiedDiff = none ∧
      replay oneFile (turnChanges [moveDelta ['x']]) ≠ oneFile := by
  refine ⟨⟨⟨rfl, rfl⟩, trivial⟩, by decide, fun h => ?_⟩
  have hmoved := congrFun h (toLex ([], 1))
  exact absurd hmoved (by decide)

end TurnDiff
