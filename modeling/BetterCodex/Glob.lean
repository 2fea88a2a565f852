/-
# Wildcard patterns and the one-star backtracking matcher

A pattern is a word over an alphabet in which some letters are *stars*: a star
stands for any run of host letters, every other letter for one host letter it
accepts.  `Matches` is this reading, and `globMatch` the loop that remembers only the
latest star and retries from there.

The argument for the one remembered star is `Cursor.Aligned`: the letters read
since the latest star are star free and have been matched one for one, so a
retry of an older star could only reach a position that the latest star reaches
as well.
-/
import Mathlib

namespace Glob

open List Option

section
variable {α β : Type} (isStar : α → Bool) (accepts : α → β → Bool)

/-! ## The declarative reading -/

/-- `Matches p h`: the pattern `p` describes the host `h`. -/
def Matches : List α → List β → Prop
  | [], h => h = []
  | c :: p, h =>
    if isStar c then ∃ run rest, h = run ++ rest ∧ Matches p rest
    else ∃ b rest, h = b :: rest ∧ accepts c b = true ∧ Matches p rest

variable {isStar accepts}

variable {h : List β}

@[simp] theorem matches_nil : Matches isStar accepts [] h ↔ h = [] := .rfl

variable {p : List α}

theorem matches_star {c : α} (hc : isStar c = true) :
    Matches isStar accepts (c :: p) h ↔
      ∃ run rest, h = run ++ rest ∧ Matches isStar accepts p rest := by
  rw [Matches, if_pos hc]

theorem matches_letter {c : α} (hc : isStar c = false) :
    Matches isStar accepts (c :: p) h ↔
      ∃ b rest, h = b :: rest ∧ accepts c b = true ∧ Matches isStar accepts p rest := by
  rw [Matches, if_neg (by simp [hc])]

/-- A pattern in two parts matches a host in two parts. -/
theorem matches_append {q : List α} :
    Matches isStar accepts (p ++ q) h ↔
      ∃ x y, h = x ++ y ∧ Matches isStar accepts p x ∧ Matches isStar accepts q y := by
  induction p generalizing h with
  | nil => simp
  | cons c p ih =>
    rw [cons_append]
    by_cases hc : isStar c = true
    · simp only [matches_star hc, ih]
      constructor
      · rintro ⟨run, _, rfl, x, y, rfl, hx, hy⟩
        exact ⟨run ++ x, y, (append_assoc ..).symm, ⟨run, x, rfl, hx⟩, hy⟩
      · rintro ⟨_, y, rfl, ⟨run, x, rfl, hx⟩, hy⟩
        exact ⟨run, x ++ y, append_assoc .., x, y, rfl, hx, hy⟩
    · have hc' : isStar c = false := by simpa using hc
      simp only [matches_letter hc', ih]
      constructor
      · rintro ⟨b, _, rfl, hb, x, y, rfl, hx, hy⟩
        exact ⟨b :: x, y, rfl, ⟨b, x, rfl, hb, hx⟩, hy⟩
      · rintro ⟨_, y, rfl, ⟨b, x, rfl, hb, hx⟩, hy⟩
        exact ⟨b, x ++ y, rfl, hb, x, y, rfl, hx, hy⟩

theorem matches_empty_iff : Matches isStar accepts p [] ↔ p.all isStar = true := by
  induction p with
  | nil => simp
  | cons c p ih =>
    by_cases hc : isStar c = true
    · rw [matches_star hc]
      simp [hc, ih]
    · have hc' : isStar c = false := by simpa using hc
      rw [matches_letter hc']
      simp [hc']

/-- A star-free pattern reads the host letter by letter. -/
theorem matches_letters (hp : ∀ c ∈ p, isStar c = false) :
    Matches isStar accepts p h ↔ List.Forall₂ (fun c b => accepts c b = true) p h := by
  induction p generalizing h with
  | nil => simp
  | cons c p ih =>
    have hc : isStar c = false := hp c (by simp)
    have hp' : ∀ c ∈ p, isStar c = false := fun c hm => hp c (by simp [hm])
    rw [matches_letter hc, forall₂_cons_left_iff]
    constructor
    · rintro ⟨b, rest, rfl, hb, hm⟩
      exact ⟨b, rest, hb, (ih hp').1 hm, rfl⟩
    · rintro ⟨b, rest, hb, hm, rfl⟩
      exact ⟨b, rest, rfl, hb, (ih hp').2 hm⟩

end

/-- A pattern describes its own text as soon as its letters accept themselves. -/
theorem matches_self {α : Type} {isStar : α → Bool} {accepts : α → α → Bool} {p : List α}
    (hp : ∀ c ∈ p, isStar c = false → accepts c c = true) : Matches isStar accepts p p := by
  induction p with
  | nil => simp
  | cons c p ih =>
    have ih' := ih fun d hd => hp d (by simp [hd])
    by_cases hc : isStar c = true
    · rw [matches_star hc]
      exact ⟨[c], p, rfl, ih'⟩
    · have hc' : isStar c = false := by simpa using hc
      rw [matches_letter hc']
      exact ⟨c, p, rfl, hp c (by simp) hc', ih'⟩

/-! ## The matcher -/

/-- The matcher's variables: what is left of the pattern and of the host, and,
once a star was met, the pattern behind the latest one with the host left when
its run ended. -/
structure Cursor (α β : Type) where
  pattern : List α
  host : List β
  star : Option (List α × List β)

section
variable {α β : Type} (isStar : α → Bool) (accepts : α → β → Bool)

/-- Let the latest star absorb one more letter; without one the match fails. -/
def retry : Option (List α × List β) → Option (Cursor α β)
  | some (resume, _ :: consumed) => some ⟨resume, consumed, some (resume, consumed)⟩
  | _ => none

/-- One turn of the loop at the host letter `b`. -/
def step (pattern : List α) (b : β) (host : List β) (star : Option (List α × List β)) :
    Option (Cursor α β) :=
  match pattern with
  | [] => retry star
  | c :: p =>
    if isStar c then some ⟨p, b :: host, some (p, b :: host)⟩
    else if accepts c b then some ⟨p, host, star⟩
    else retry star

/-- The loop, for at most `fuel` turns. -/
def run : ℕ → Cursor α β → Bool
  | _, ⟨pattern, [], _⟩ => pattern.all isStar
  | 0, _ => false
  | fuel + 1, ⟨pattern, b :: host, star⟩ =>
    match step isStar accepts pattern b host star with
    | some next => run fuel next
    | none => false

/-- The loop is over after at most `fuel` turns. -/
def EndsWithin : ℕ → Cursor α β → Prop
  | _, ⟨_, [], _⟩ => True
  | 0, ⟨_, _ :: _, _⟩ => False
  | fuel + 1, ⟨pattern, b :: host, star⟩ =>
    ∀ next, step isStar accepts pattern b host star = some next → EndsWithin fuel next

/-- The host letters that the loop may still visit, counting what a retry of the
latest star visits again. -/
def Cursor.reach (s : Cursor α β) : ℕ :=
  match s.star with
  | some (_, consumed) => consumed.length
  | none => s.host.length

/-- The turns left for a pattern of at most `n` letters. -/
def Cursor.work (n : ℕ) (s : Cursor α β) : ℕ := s.reach * (n + 1) + s.pattern.length

/-- The whole match, with as many turns as the loop can take. -/
def globMatch (pattern : List α) (host : List β) : Bool :=
  run isStar accepts (host.length * (pattern.length + 1) + pattern.length) ⟨pattern, host, none⟩

/-! ## The loop invariant -/

/-- The host is matched from here, or after the latest star has absorbed at least
one more letter. -/
def Cursor.Accepts (s : Cursor α β) : Prop :=
  Matches isStar accepts s.pattern s.host ∨
    ∃ resume consumed run rest, s.star = some (resume, consumed) ∧ run ≠ [] ∧
      consumed = run ++ rest ∧ Matches isStar accepts resume rest

/-- Since the latest star the letters of the pattern (all different from a star)
were matched one for one, and the pattern behind it has at most `n` letters. -/
def Cursor.Aligned (n : ℕ) (s : Cursor α β) : Prop :=
  ∀ resume consumed, s.star = some (resume, consumed) → resume.length ≤ n ∧
    ∃ letters seen, resume = letters ++ s.pattern ∧ consumed = seen ++ s.host ∧
      (∀ c ∈ letters, isStar c = false) ∧
      List.Forall₂ (fun c b => accepts c b = true) letters seen

variable {isStar accepts}

variable {n : ℕ} {p : List α} {h : List β}

/-- What a retry of an aligned star could still reach from its position lies
within the present host. -/
theorem Cursor.Aligned.rest_of_retry {resume : List α} {consumed run rest : List β}
    (hs : Cursor.Aligned isStar accepts n ⟨p, h, some (resume, consumed)⟩) (hrun : run ≠ [])
    (hsplit : consumed = run ++ rest) (hm : Matches isStar accepts resume rest) :
    ∃ x y, x ≠ [] ∧ h = x ++ y ∧ Matches isStar accepts p y := by
  obtain ⟨-, letters, seen, hresume, hconsumed, hletters, hseen⟩ := hs resume consumed rfl
  rw [hconsumed] at hsplit
  rw [hresume] at hm
  obtain ⟨read, y, rfl, hread, hy⟩ := matches_append.1 hm
  rw [matches_letters hletters] at hread
  -- `seen` and `read` are the same number of letters, so `y` starts later than `h`
  have hlen : read.length = seen.length := hread.length_eq.symm.trans hseen.length_eq
  have hpos : 0 < run.length := length_pos_iff.2 hrun
  have hle : seen.length ≤ (run ++ read).length := by
    rw [length_append]
    omega
  rw [← append_assoc] at hsplit
  obtain ⟨x, hx, hxy⟩ := (append_eq_append_iff.1 hsplit).resolve_right (by
    rintro ⟨z, hz, -⟩
    have hz' := congrArg List.length hz
    simp only [length_append] at hz' hle
    omega)
  refine ⟨x, y, ?_, hxy, hy⟩
  rintro rfl
  have hx' := congrArg List.length hx
  simp only [length_append, length_nil] at hx'
  omega

variable {s : Cursor α β}

/-- The loop has at least the present host before it. -/
theorem Cursor.Aligned.length_le_reach (hs : s.Aligned isStar accepts n) :
    s.host.length ≤ s.reach := by
  obtain ⟨p, h, star⟩ := s
  match star, hs with
  | none, _ => exact le_rfl
  | some (resume, consumed), hs =>
    obtain ⟨-, letters, seen, -, hconsumed, -, -⟩ := hs resume consumed rfl
    simp [Cursor.reach, hconsumed]

variable {star : Option (List α × List β)}

/-- At the end of the host nothing is gained by a retry. -/
theorem Cursor.Aligned.accepts_nil (hs : Cursor.Aligned isStar accepts n ⟨p, [], star⟩) :
    Cursor.Accepts isStar accepts ⟨p, [], star⟩ ↔ p.all isStar = true := by
  rw [← matches_empty_iff ]
  refine ⟨?_, .inl⟩
  rintro (hm | ⟨resume, consumed, run, rest, hstar, hrun, hsplit, hm⟩)
  · exact hm
  · obtain rfl : star = some (resume, consumed) := hstar
    obtain ⟨x, y, hx, hxy, -⟩ := hs.rest_of_retry hrun hsplit hm
    exact absurd (append_eq_nil_iff.1 hxy.symm).1 hx

variable {b : β}

/-- A turn that stays at a failing position hands over to the latest star. -/
theorem accepts_retry (hs : Cursor.Aligned isStar accepts n ⟨p, b :: h, star⟩)
    (hfail : ¬ Matches isStar accepts p (b :: h)) :
    Cursor.Accepts isStar accepts ⟨p, b :: h, star⟩ ↔
      ∃ next, retry star = some next ∧ Cursor.Accepts isStar accepts next := by
  rw [Cursor.Accepts, or_iff_right hfail]
  match star, hs with
  | none, _ => simp [retry]
  | some (resume, []), hs =>
    obtain ⟨-, letters, seen, -, hconsumed, -, -⟩ := hs resume [] rfl
    simp at hconsumed
  | some (resume, d :: consumed), _ =>
    simp only [retry, some.injEq, Prod.mk.injEq, exists_eq_left']
    constructor
    · rintro ⟨_, _, run, rest, ⟨rfl, rfl⟩, hrun, hsplit, hm⟩
      obtain ⟨e, run, rfl⟩ := exists_cons_of_ne_nil hrun
      obtain ⟨rfl, rfl⟩ : d = e ∧ consumed = run ++ rest := by simpa using hsplit
      by_cases hnil : run = []
      · exact .inl (by simpa [hnil] using hm)
      · exact .inr ⟨resume, run ++ rest, run, rest, rfl, hnil, rfl, hm⟩
    · rintro (hm | ⟨_, _, run, rest, hstar, -, hsplit, hm⟩)
      · exact ⟨resume, d :: consumed, [d], consumed, ⟨rfl, rfl⟩, by simp, rfl, hm⟩
      · obtain ⟨rfl, rfl⟩ : resume = _ ∧ consumed = _ := by simpa using hstar
        exact ⟨resume, d :: consumed, d :: run, rest, ⟨rfl, rfl⟩, by simp, by simp [hsplit], hm⟩

/-- **One turn keeps the answer.**  The position accepts exactly when the turn
does not fail and leads to a position that accepts. -/
theorem accepts_step (hs : Cursor.Aligned isStar accepts n ⟨p, b :: h, star⟩) :
    Cursor.Accepts isStar accepts ⟨p, b :: h, star⟩ ↔
      ∃ next, step isStar accepts p b h star = some next ∧
        Cursor.Accepts isStar accepts next := by
  match p, hs with
  | [], hs => exact accepts_retry hs (by simp)
  | c :: p, hs =>
    by_cases hc : isStar c = true
    · -- the new star replaces the old one, which could reach nothing more
      simp only [step, hc, if_true, some.injEq, exists_eq_left']
      constructor
      · intro hacc
        have hm : Matches isStar accepts (c :: p) (b :: h) := by
          rcases hacc with hm | ⟨resume, consumed, run, rest, hstar, hrun, hsplit, hm⟩
          · exact hm
          · obtain rfl : star = some (resume, consumed) := hstar
            obtain ⟨x, y, -, hxy, hm'⟩ := hs.rest_of_retry hrun hsplit hm
            obtain ⟨z, rest', rfl, hrest⟩ := (matches_star hc).1 hm'
            exact (matches_star hc).2 ⟨x ++ z, rest', by simp [hxy], hrest⟩
        obtain ⟨run, rest, hsplit, hrest⟩ := (matches_star hc).1 hm
        by_cases hnil : run = []
        · exact .inl (by simpa [hsplit, hnil] using hrest)
        · exact .inr ⟨p, b :: h, run, rest, rfl, hnil, hsplit, hrest⟩
      · rintro (hm | ⟨_, _, run, rest, hstar, -, hsplit, hm⟩)
        · exact .inl ((matches_star hc).2 ⟨[], b :: h, rfl, hm⟩)
        · obtain ⟨rfl, rfl⟩ : p = _ ∧ b :: h = _ := by simpa using hstar
          exact .inl ((matches_star hc).2 ⟨run, rest, hsplit, hm⟩)
    · have hc' : isStar c = false := by simpa using hc
      by_cases hb : accepts c b = true
      · simp only [step, hc', hb, if_true, Bool.false_eq_true, if_false, some.injEq,
          exists_eq_left']
        have hm : Matches isStar accepts (c :: p) (b :: h) ↔ Matches isStar accepts p h := by
          rw [matches_letter hc']
          simp [hb]
        exact or_congr_left hm
      · have hfail : ¬ Matches isStar accepts (c :: p) (b :: h) := by
          rw [matches_letter hc']
          simp [hb]
        have hstep : step isStar accepts (c :: p) b h star = retry star := by
          simp [step, hc', hb]
        rw [hstep]
        exact accepts_retry hs hfail

/-- A retry ends in an aligned position with less work left. -/
theorem retry_spec {next : Cursor α β} (hs : Cursor.Aligned isStar accepts n ⟨p, b :: h, star⟩)
    (hnext : retry star = some next) :
    next.Aligned isStar accepts n ∧ next.pattern.length ≤ n ∧
      next.work n < Cursor.work n ⟨p, b :: h, star⟩ := by
  match star, hs with
  | some (resume, d :: consumed), hs =>
    have hlen : resume.length ≤ n := (hs resume (d :: consumed) rfl).1
    obtain rfl : _ = next := some.inj hnext
    refine ⟨?_, hlen, ?_⟩
    · rintro _ _ ⟨rfl, rfl⟩
      exact ⟨hlen, [], [], rfl, rfl, by simp, .nil⟩
    · simp only [Cursor.work, Cursor.reach, length_cons]
      rw [Nat.succ_mul]
      omega

/-- **One turn keeps the alignment** and takes work off. -/
theorem step_spec {next : Cursor α β} (hs : Cursor.Aligned isStar accepts n ⟨p, b :: h, star⟩)
    (hp : p.length ≤ n) (hnext : step isStar accepts p b h star = some next) :
    next.Aligned isStar accepts n ∧ next.pattern.length ≤ n ∧
      next.work n < Cursor.work n ⟨p, b :: h, star⟩ := by
  match p, hs, hp with
  | [], hs, _ => exact retry_spec hs hnext
  | c :: p, hs, hp =>
    have hp' : p.length ≤ n := by
      rw [length_cons] at hp
      omega
    simp only [step] at hnext
    split_ifs at hnext with hc hb
    · obtain rfl : _ = next := some.inj hnext
      refine ⟨?_, hp', ?_⟩
      · rintro _ _ ⟨rfl, rfl⟩
        exact ⟨hp', [], [], rfl, rfl, by simp, .nil⟩
      · -- the host left at the new star is a suffix of what the old one left
        have hmul := Nat.mul_le_mul_right (n + 1) hs.length_le_reach
        simp only [Cursor.work, length_cons] at hmul ⊢
        show (h.length + 1) * (n + 1) + p.length < _
        omega
    · obtain rfl : _ = next := some.inj hnext
      refine ⟨?_, hp', ?_⟩
      · intro resume consumed hstar
        obtain ⟨hlen, letters, seen, hresume, hconsumed, hletters, hseen⟩ :=
          hs resume consumed hstar
        refine ⟨hlen, letters ++ [c], seen ++ [b], by simpa using hresume,
          by simpa using hconsumed, ?_, ?_⟩
        · intro d hd
          rcases mem_append.1 hd with hd | hd
          · exact hletters d hd
          · rw [mem_singleton.1 hd]
            simpa using hc
        · exact rel_append hseen (.cons hb .nil)
      · have hreach : Cursor.reach ⟨p, h, star⟩ ≤ Cursor.reach ⟨c :: p, b :: h, star⟩ := by
          match star with
          | none => simp [Cursor.reach]
          | some _ => exact le_rfl
        have hmul := Nat.mul_le_mul_right (n + 1) hreach
        simp only [Cursor.work, length_cons]
        omega
    · exact retry_spec hs hnext

theorem Cursor.Aligned.work_pos (hs : Cursor.Aligned isStar accepts n ⟨p, b :: h, star⟩) :
    0 < Cursor.work n ⟨p, b :: h, star⟩ := by
  have hmul := Nat.mul_le_mul_right (n + 1) hs.length_le_reach
  simp only [Cursor.work, length_cons, Nat.succ_mul] at hmul ⊢
  omega

/-- **The loop ends.**  It takes no more turns than there is work left. -/
theorem endsWithin_work {fuel : ℕ} (hs : s.Aligned isStar accepts n) (hp : s.pattern.length ≤ n)
    (hfuel : s.work n ≤ fuel) : EndsWithin isStar accepts fuel s := by
  induction fuel generalizing s with
  | zero =>
    obtain ⟨p, h, star⟩ := s
    match h with
    | [] => trivial
    | b :: h =>
      have hpos := hs.work_pos
      omega
  | succ fuel ih =>
    obtain ⟨p, h, star⟩ := s
    match h with
    | [] => trivial
    | b :: h =>
      intro next hnext
      obtain ⟨hs', hp', hwork⟩ := step_spec hs hp hnext
      exact ih hs' hp' (by omega)

/-- **The whole loop.**  With enough turns the loop answers what its starting
position accepts. -/
theorem run_iff {fuel : ℕ} (hs : s.Aligned isStar accepts n) (hp : s.pattern.length ≤ n)
    (hfuel : s.work n ≤ fuel) : run isStar accepts fuel s = true ↔ s.Accepts isStar accepts := by
  induction fuel generalizing s with
  | zero =>
    obtain ⟨p, h, star⟩ := s
    match h with
    | [] => exact hs.accepts_nil.symm
    | b :: h =>
      -- no work left means no host left
      have hpos := hs.work_pos
      omega
  | succ fuel ih =>
    obtain ⟨p, h, star⟩ := s
    match h with
    | [] => exact hs.accepts_nil.symm
    | b :: h =>
      rw [accepts_step hs]
      simp only [run]
      cases hstep : step isStar accepts p b h star with
      | none => simp
      | some next =>
        obtain ⟨hs', hp', hwork⟩ := step_spec hs hp hstep
        simpa using ih hs' hp' (by omega)

theorem aligned_start (p : List α) (h : List β) :
    Cursor.Aligned isStar accepts p.length ⟨p, h, none⟩ := by
  rintro _ _ ⟨⟩

variable (isStar accepts) in
/-- **The matcher is the declarative reading.** -/
theorem globMatch_iff (p : List α) (h : List β) :
    globMatch isStar accepts p h = true ↔ Matches isStar accepts p h := by
  refine (run_iff (aligned_start p h) le_rfl le_rfl).trans ?_
  simp [Cursor.Accepts]

end

end Glob
