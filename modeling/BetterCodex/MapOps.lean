/-
# Operations on a map, announced at once and carried out one by one

A list of operations on a map from keys to values (put, drop, rewrite, move) can be read
in two ways.  Announced against the map as it is, every operation tells the values it
will leave behind.  Carried out, the operations see what the earlier ones did.  The
question is when the announcements come true.

For operations with distinct keys the answer is `realised_iff`: exactly when no key is
announced two different values (`Agree`), and a rewritten key that an earlier move wrote,
and that no later move writes again, is left as it is by a second rewrite (`Settled`).
-/
import Mathlib

namespace MapOps

open List

variable {K V : Type}

/-- An operation on a map; `f` computes the new value and may fail. -/
inductive Op (K V : Type) where
  | put (k : K) (v : V)
  | drop (k : K)
  | rewrite (k : K) (f : V → Option V)
  | move (k dest : K) (f : V → Option V)

/-- The key that an operation is for; a move is for its source. -/
def Op.key : Op K V → K
  | .put k _ => k
  | .drop k => k
  | .rewrite k _ => k
  | .move k _ _ => k

/-- The destination of a move. -/
def Op.dest? : Op K V → Option K
  | .move _ dest _ => some dest
  | _ => none

/-- The operation may change the value at `k`. -/
def Op.Touches (op : Op K V) (k : K) : Prop := op.key = k ∨ op.dest? = some k

variable (ops : List (Op K V))

open Op

/-- The destinations of the moves in a list. -/
def dests : List K := ops.filterMap dest?

variable (M : K → Option V)

/-- What an operation announces, read against `M`: keys with their values to come. -/
def Op.announces : Op K V → List (K × Option V)
  | .put k v => [(k, some v)]
  | .drop k => [(k, none)]
  | .rewrite k f => ((M k).bind f).toList.map fun v => (k, some v)
  | .move k dest f => ((M k).bind f).toList.flatMap fun v => [(dest, some v), (k, none)]

/-- All announcements against one map. -/
def announced : List (K × Option V) :=
  ops.flatMap (announces M)

/-- The operation can be carried out on `M`. -/
def Op.Ready : Op K V → Prop
  | .put _ _ => True
  | .drop _ => True
  | .rewrite k f => ((M k).bind f).isSome
  | .move k _ f => ((M k).bind f).isSome

/-- No key is announced two different values. -/
def Agree : Prop :=
  ∀ k a b, (k, a) ∈ announced ops M → (k, b) ∈ announced ops M → a = b

/-- A rewritten key that an earlier move wrote, and that no later move writes again, is left as
it is by a second rewrite. -/
def Settled : Prop :=
  ∀ before k f after v, ops = before ++ .rewrite k f :: after → k ∈ dests before →
    k ∉ dests after → (M k).bind f = some v → f v = some v

/-- `M'` is `M` with the announced values. -/
def Realised (M M' : K → Option V) : Prop :=
  (∀ k a, (k, a) ∈ announced ops M → M' k = a) ∧
    ∀ k, (∀ a, (k, a) ∉ announced ops M) → M' k = M k

section Run

variable [DecidableEq K]

/-- Carry out an operation. -/
def Op.run (M : K → Option V) : Op K V → Option (K → Option V)
  | .put k v => some (Function.update M k (some v))
  | .drop k => some (Function.update M k none)
  | .rewrite k f => ((M k).bind f).map fun v => Function.update M k (some v)
  | .move k dest f =>
    ((M k).bind f).map fun v => Function.update (Function.update M dest (some v)) k none

/-- Carry out operations one after the other. -/
def runAll : List (Op K V) → (K → Option V) → Option (K → Option V)
  | [], M => some M
  | op :: ops, M => (op.run M).bind (runAll ops)

theorem runAll_append (xs ys : List (Op K V)) (M : K → Option V) :
    runAll (xs ++ ys) M = (runAll xs M).bind (runAll ys) := by
  induction xs generalizing M with
  | nil => rfl
  | cons op xs ih =>
    show (op.run M).bind (runAll (xs ++ ys)) = ((op.run M).bind (runAll xs)).bind (runAll ys)
    rw [Option.bind_assoc]
    congr
    funext M₁
    exact ih M₁

variable {M M' : K → Option V}

/-- A run through `op` in the middle, taken apart. -/
theorem runAll_split {xs ys : List (Op K V)} {op : Op K V}
    (h : runAll (xs ++ op :: ys) M = some M') :
    ∃ M₁ M₂, runAll xs M = some M₁ ∧ op.run M₁ = some M₂ ∧ runAll ys M₂ = some M' := by
  rw [runAll_append, Option.bind_eq_some_iff] at h
  obtain ⟨M₁, h₁, h⟩ := h
  obtain ⟨M₂, h₂, h₃⟩ := Option.bind_eq_some_iff.1 h
  exact ⟨M₁, M₂, h₁, h₂, h₃⟩

/-- **Frame.**  An operation changes no key that it does not touch. -/
theorem Op.run_of_not_touches {op : Op K V} {k : K} (h : op.run M = some M') (hk : ¬ op.Touches k) :
    M' k = M k := by
  obtain ⟨hkey, hdest⟩ := not_or.1 hk
  cases op with
  | put k' v =>
    obtain rfl := Option.some.inj h
    exact Function.update_of_ne (Ne.symm hkey) _ _
  | drop k' =>
    obtain rfl := Option.some.inj h
    exact Function.update_of_ne (Ne.symm hkey) _ _
  | rewrite k' f =>
    obtain ⟨v, -, rfl⟩ := Option.map_eq_some_iff.1 h
    exact Function.update_of_ne (Ne.symm hkey) _ _
  | move k' dest f =>
    obtain ⟨v, -, rfl⟩ := Option.map_eq_some_iff.1 h
    have hsource : k ≠ k' := Ne.symm hkey
    rw [Function.update_of_ne hsource]
    refine Function.update_of_ne ?_ _ _
    rintro rfl
    exact hdest rfl

theorem runAll_of_not_touches {ops : List (Op K V)} {k : K} (h : runAll ops M = some M')
    (hk : ∀ op ∈ ops, ¬ op.Touches k) : M' k = M k := by
  induction ops generalizing M with
  | nil => rw [Option.some.inj h]
  | cons op ops ih =>
    obtain ⟨M₁, h₁, h₂⟩ := Option.bind_eq_some_iff.1 h
    rw [ih h₂ fun op' hop' => hk op' (mem_cons_of_mem op hop')]
    exact op.run_of_not_touches h₁ (hk op mem_cons_self)

end Run

/-! ## What is announced -/

variable {k : K}

theorem mem_dests {ops : List (Op K V)} : k ∈ dests ops ↔ ∃ j f, move j k f ∈ ops := by
  constructor
  · intro h
    obtain ⟨op, hop, hdest⟩ := mem_filterMap.1 h
    cases op with
    | move j dest f =>
      obtain rfl := Option.some.inj hdest
      exact ⟨j, f, hop⟩
    | put | drop | rewrite => simp [dest?] at hdest
  · rintro ⟨j, f, hop⟩
    exact mem_filterMap.2 ⟨_, hop, rfl⟩

variable {M : K → Option V} {op : Op K V}

theorem mem_announced {ops : List (Op K V)} {e : K × Option V} (hop : op ∈ ops)
    (he : e ∈ op.announces M) : e ∈ announced ops M :=
  mem_flatMap.2 ⟨op, hop, he⟩

theorem announces_rewrite {f : V → Option V} {v : V} (hv : (M k).bind f = some v) :
    (rewrite k f).announces M = [(k, some v)] := by
  simp [announces, hv]

theorem announces_move {dest : K} {f : V → Option V} {v : V} (hv : (M k).bind f = some v) :
    (move k dest f).announces M = [(dest, some v), (k, none)] := by
  simp [announces, hv]

/-- An operation that is ready announces every key it touches. -/
theorem Op.Ready.exists_announced (h : op.Ready M) (hk : op.Touches k) :
    ∃ a, (k, a) ∈ op.announces M := by
  cases op with
  | put k' v =>
    rcases hk with rfl | hk
    · exact ⟨some v, mem_singleton_self _⟩
    · simp [dest?] at hk
  | drop k' =>
    rcases hk with rfl | hk
    · exact ⟨none, mem_singleton_self _⟩
    · simp [dest?] at hk
  | rewrite k' f =>
    obtain ⟨v, hv⟩ := Option.isSome_iff_exists.1 h
    rw [announces_rewrite hv]
    rcases hk with rfl | hk
    · exact ⟨some v, mem_singleton_self _⟩
    · simp [dest?] at hk
  | move k' dest f =>
    obtain ⟨v, hv⟩ := Option.isSome_iff_exists.1 h
    rw [announces_move hv]
    rcases hk with rfl | hk
    · exact ⟨none, by simp [key]⟩
    · obtain rfl := Option.some.inj hk
      exact ⟨some v, by simp⟩

/-- An operation announces values of keys that it touches. -/
theorem touches_of_announces {a : Option V} (h : (k, a) ∈ op.announces M) : op.Touches k := by
  cases op with
  | put k' v =>
    simp only [announces, mem_singleton, Prod.mk.injEq] at h
    exact .inl h.1.symm
  | drop k' =>
    simp only [announces, mem_singleton, Prod.mk.injEq] at h
    exact .inl h.1.symm
  | rewrite k' f =>
    simp only [announces, mem_map, Prod.mk.injEq] at h
    obtain ⟨v, -, rfl, -⟩ := h
    exact .inl rfl
  | move k' dest f =>
    simp only [announces, mem_flatMap, mem_cons, not_mem_nil, or_false, Prod.mk.injEq] at h
    obtain ⟨v, -, ⟨rfl, -⟩ | ⟨rfl, -⟩⟩ := h
    · exact .inr rfl
    · exact .inl rfl

/-! ## When the announcements come true -/

section Realised

variable {ops : List (Op K V)} {M M' : K → Option V}

variable {before after : List (Op K V)}

theorem key_not_mem_of_nodup {op : Op K V} (hkeys : ((before ++ op :: after).map key).Nodup) :
    (∀ op' ∈ before, op'.key ≠ op.key) ∧ ∀ op' ∈ after, op'.key ≠ op.key := by
  rw [map_append, map_cons, nodup_append] at hkeys
  obtain ⟨-, hcons, hdisj⟩ := hkeys
  constructor
  · intro op' hop'
    exact hdisj _ (mem_map_of_mem hop') _ mem_cons_self
  · intro op' hop' heq
    exact (nodup_cons.1 hcons).1 (heq ▸ mem_map_of_mem hop')

variable [DecidableEq K]

variable {k : K}

open Option

/-- The source of a move still has its first value when the move is carried out: an
earlier move there would be announced another value than none. -/
theorem source_unchanged {dest : K} {f : V → Option V} {M₁ : K → Option V}
    (hkeys : ((before ++ .move k dest f :: after).map key).Nodup)
    (hready : ∀ op ∈ before ++ .move k dest f :: after, op.Ready M)
    (hagree : Agree (before ++ .move k dest f :: after) M) (hrun : runAll before M = some M₁) :
    M₁ k = M k := by
  apply runAll_of_not_touches hrun
  rintro op hop (hkey | hdest)
  · exact (key_not_mem_of_nodup hkeys).1 op hop hkey
  · -- the earlier move announces a value for `k`, this one announces none
    have hmove : move k dest f ∈ before ++ .move k dest f :: after := by simp
    obtain ⟨v, hv⟩ := isSome_iff_exists.1 (hready _ hmove)
    have hnone : (k, none) ∈ announced (before ++ .move k dest f :: after) M :=
      mem_announced hmove (by rw [announces_move hv]; simp)
    cases op with
    | move j dest' g =>
      obtain rfl := some.inj hdest
      have hop' := mem_append_left (.move dest' dest f :: after) hop
      obtain ⟨w, hw⟩ := isSome_iff_exists.1 (hready _ hop')
      have hsome := mem_announced hop' (by rw [announces_move hw]; exact .head _)
      simpa using hagree _ _ _ hsome hnone
    | put | drop | rewrite => simp [dest?] at hdest

/-- A key that moves have written, and that no operation so far is for, has the value that is
announced for it. -/
theorem value_of_mem_dests {rest : List (Op K V)} {M₁ : K → Option V}
    (hkeys : ((before ++ rest).map key).Nodup) (hready : ∀ op ∈ before ++ rest, op.Ready M)
    (hagree : Agree (before ++ rest) M) (hrun : runAll before M = some M₁)
    (hk : ∀ op ∈ before, op.key ≠ k) (hdest : k ∈ dests before) :
    ∃ v, M₁ k = some v ∧ (k, some v) ∈ announced (before ++ rest) M := by
  -- from the end: either the last operation is a move to `k`, or it does not touch `k`
  induction before using List.reverseRecOn generalizing rest M₁ with
  | nil => simp [dests] at hdest
  | append_singleton before op ih =>
    rw [append_assoc, singleton_append] at hkeys hready hagree ⊢
    obtain ⟨M₀, M₂, h₀, hop, h₂⟩ := runAll_split hrun
    obtain rfl : M₂ = M₁ := some.inj h₂
    have hne : op.key ≠ k := hk op (by simp)
    by_cases hmove : op.dest? = some k
    · cases op with
      | move j dest f =>
        obtain rfl : dest = k := some.inj hmove
        obtain ⟨v, hv, rfl⟩ := map_eq_some_iff.1 hop
        have hj : j ≠ dest := hne
        rw [source_unchanged hkeys hready hagree h₀] at hv
        have hmem : move j dest f ∈ before ++ .move j dest f :: rest := by simp
        refine ⟨v, by simp [hj.symm], mem_announced hmem ?_⟩
        rw [announces_move hv]
        exact .head _
      | put | drop | rewrite => simp [dest?] at hmove
    · have hbefore : k ∈ dests before := by
        simpa [dests, filterMap_append, hmove] using hdest
      rw [op.run_of_not_touches hop (not_or.2 ⟨hne, hmove⟩)]
      exact ih hkeys hready hagree h₀ (fun op' hop' => hk op' (by simp [hop'])) hbefore

/-- What a run leaves at a key is what the last operation that touches it announces. -/
theorem exists_announced_value {op : Op K V} (hkeys : ((before ++ op :: after).map key).Nodup)
    (hready : ∀ op' ∈ before ++ op :: after, op'.Ready M) (hagree : Agree (before ++ op :: after) M)
    (hsettled : Settled (before ++ op :: after) M)
    (hrun : runAll (before ++ op :: after) M = some M') (hop : op.Touches k)
    (hafter : ∀ op' ∈ after, ¬ op'.Touches k) :
    (k, M' k) ∈ announced (before ++ op :: after) M := by
  obtain ⟨M₁, M₂, h₁, h₂, h₃⟩ := runAll_split hrun
  rw [runAll_of_not_touches h₃ hafter]
  have hmem : op ∈ before ++ op :: after := by simp
  refine mem_announced hmem ?_
  cases op with
  | put k' v =>
    obtain rfl := some.inj h₂
    rcases hop with rfl | hop
    · simp [announces, key]
    · simp [dest?] at hop
  | drop k' =>
    obtain rfl := some.inj h₂
    rcases hop with rfl | hop
    · simp [announces, key]
    · simp [dest?] at hop
  | rewrite k' f =>
    obtain rfl : k' = k := hop.resolve_right (by simp [dest?])
    obtain ⟨v, hv⟩ := isSome_iff_exists.1 (hready _ hmem)
    obtain ⟨v₁, hv₁, rfl⟩ := map_eq_some_iff.1 h₂
    have hown : (k', some v) ∈ (rewrite k' f).announces M := by
      rw [announces_rewrite hv]
      exact mem_singleton_self _
    suffices v₁ = v by simpa [this] using hown
    by_cases hd : k' ∈ dests before
    · -- the value read is the announced one, and a second rewrite leaves it
      have hkey : ∀ op ∈ before, op.key ≠ k' := (key_not_mem_of_nodup hkeys).1
      obtain ⟨w, hw, hwann⟩ := value_of_mem_dests hkeys hready hagree h₁ hkey hd
      obtain rfl : w = v :=
        some.inj (hagree _ _ _ hwann (mem_announced hmem hown))
      have hlast : k' ∉ dests after := by
        intro hmem'
        obtain ⟨j, g, hj⟩ := mem_dests.1 hmem'
        exact hafter _ hj (.inr rfl)
      have hstay : f w = some w := hsettled before k' f after w rfl hd hlast hv
      rw [hw, bind_some, hstay] at hv₁
      exact (some.inj hv₁).symm
    · have hread : M₁ k' = M k' := by
        apply runAll_of_not_touches h₁
        rintro op hop (hkey | hdest)
        · exact (key_not_mem_of_nodup hkeys).1 op hop hkey
        · exact hd (mem_filterMap.2 ⟨op, hop, hdest⟩)
      rw [hread, hv] at hv₁
      exact (some.inj hv₁).symm
  | move k' dest f =>
    obtain ⟨v, hv⟩ := isSome_iff_exists.1 (hready _ hmem)
    obtain ⟨v₁, hv₁, rfl⟩ := map_eq_some_iff.1 h₂
    rw [source_unchanged hkeys hready hagree h₁, hv] at hv₁
    obtain rfl := some.inj hv₁
    have hown : (move k' dest f).announces M = [(dest, some v), (k', none)] := announces_move hv
    rw [hown]
    have hne : dest ≠ k' := by
      rintro rfl
      have hsome := mem_announced hmem (by rw [hown]; exact .head _)
      have hnone : (dest, none) ∈ announced _ M :=
        mem_announced hmem (by rw [hown]; simp)
      simpa using hagree _ _ _ hsome hnone
    rcases hop with hkey | hdest
    · obtain rfl : k' = k := hkey
      simp
    · obtain rfl : dest = k := some.inj hdest
      simp [hne]

/-- The last element of a list with a property. -/
theorem exists_last {α : Type} {p : α → Prop} {xs : List α} (h : ∃ x ∈ xs, p x) :
    ∃ before x after, xs = before ++ x :: after ∧ p x ∧ ∀ y ∈ after, ¬ p y := by
  induction xs with
  | nil => simp at h
  | cons a xs ih =>
    by_cases htail : ∃ x ∈ xs, p x
    · obtain ⟨before, x, after, rfl, hx, hafter⟩ := ih htail
      exact ⟨a :: before, x, after, rfl, hx, hafter⟩
    · obtain ⟨x, hx, hpx⟩ := h
      push Not at htail
      rcases mem_cons.1 hx with rfl | hx
      · exact ⟨[], x, xs, rfl, hpx, htail⟩
      · exact absurd hpx (htail x hx)

/-- **When announcements come true.**  Operations with distinct keys that were all ready
before the run leave behind what they announced exactly when the announcements agree and
are settled. -/
theorem realised_iff (hkeys : (ops.map key).Nodup) (hready : ∀ op ∈ ops, op.Ready M)
    (hrun : runAll ops M = some M') : Realised ops M M' ↔ Agree ops M ∧ Settled ops M := by
  constructor
  · rintro ⟨hreal, -⟩
    have hagree : Agree ops M := fun k a b ha hb => (hreal k a ha).symm.trans (hreal k b hb)
    refine ⟨hagree, ?_⟩
    rintro before k f after v rfl hd hlast hv
    obtain ⟨M₁, M₂, h₁, h₂, h₃⟩ := runAll_split hrun
    have hmem : rewrite k f ∈ before ++ .rewrite k f :: after := by simp
    have hown : (k, some v) ∈ announced (before ++ .rewrite k f :: after) M :=
      mem_announced hmem (by rw [announces_rewrite hv]; exact mem_singleton_self _)
    have hkey : ∀ op ∈ before, op.key ≠ k := (key_not_mem_of_nodup hkeys).1
    obtain ⟨w, hw, hwann⟩ := value_of_mem_dests hkeys hready hagree h₁ hkey hd
    obtain rfl : w = v := some.inj (hagree _ _ _ hwann hown)
    obtain ⟨v₁, hv₁, rfl⟩ := map_eq_some_iff.1 h₂
    -- the last value of `k` is the one that this rewrite gives
    have hfinal : M' k = some v₁ := by
      rw [runAll_of_not_touches h₃, Function.update_self]
      rintro op hop (hkey | hdest)
      · exact (key_not_mem_of_nodup hkeys).2 op hop hkey
      · exact hlast (mem_filterMap.2 ⟨op, hop, hdest⟩)
    rw [hw, bind_some] at hv₁
    rw [hv₁, ← hfinal]
    exact hreal k _ hown
  · rintro ⟨hagree, hsettled⟩
    constructor
    · intro k a ha
      obtain ⟨op, hop, hannounces⟩ := mem_flatMap.1 ha
      obtain ⟨before, op', after, rfl, htouch, hafter⟩ :=
        exists_last (p := fun op' : Op K V => op'.Touches k) ⟨op, hop, touches_of_announces hannounces⟩
      exact hagree k _ _
        (exists_announced_value hkeys hready hagree hsettled hrun htouch hafter) ha
    · intro k hk
      apply runAll_of_not_touches hrun
      intro op hop htouch
      obtain ⟨a, ha⟩ := (hready op hop).exists_announced htouch
      exact hk a (mem_announced hop ha)

end Realised

end MapOps
