import HeaderFlow.Proofs.Path

/-!
# The search for a path

Matching a path condition step by step: the pathlets are tried in order, and a pathlet that fails is
resumed at the newest `.*`, which then skips one hop more. A search state has the pathlet that is
next, its place, and what is left to try for each `.*` so far (`Search`).

**The search stops** (`Search.run_eq`). The newest `.*` never moves back, and while it stays the
next pathlet is a later one each time. Both are bounded, so that there are no more steps than there
are pairs of a place and a pathlet.

**Its answer is `Path.accepts`**, at every state: either the section that is being tried leads on,
or the newest `.*` is tried further on (`Search.answer`). That an older `.*` is never resumed needs
no argument here, since the sections do not do so either.
-/

namespace HeaderFlow.Path

/-- A state of the search. -/
structure Search where
  /-- The number of the pathlet that is tried next. -/
  next : Nat
  /-- Where it is tried. -/
  place : Nat
  /-- The `.*` so far, the newest first: the number of each, and from where to resume it. -/
  decisions : List (Nat × Nat)

namespace Search

variable {c : Chain} {ps : List Pathlet} {s t : Search} {b : Bool} {n : Nat}

/-- Resumes the newest `.*`, unless there is none or it has come to the root. -/
def resume (c : Chain) : List (Nat × Nat) → Search ⊕ Bool
  | [] => .inr false
  | (k, i) :: older =>
    if c.isRoot i then .inr false else .inl ⟨k + 1, i, (k, i + 1) :: older⟩

/-- **One step**: to another state, or to an answer. -/
def step (c : Chain) (ps : List Pathlet) (s : Search) : Search ⊕ Bool :=
  match ps[s.next]? with
  | none => .inr true
  | some .anyHops =>
    if c.isRoot s.place then .inr false
    else .inl ⟨s.next + 1, s.place, (s.next, s.place + 1) :: s.decisions⟩
  | some p =>
    match p.advance c s.place with
    | some j => .inl { s with next := s.next + 1, place := j }
    | none => resume c s.decisions

/-- At most `n` steps. -/
def run (c : Chain) (ps : List Pathlet) : Nat → Search → Search ⊕ Bool
  | 0, s => .inl s
  | n + 1, s =>
    match step c ps s with
    | .inl t => run c ps n t
    | .inr b => .inr b

/-! ### The answer -/

/-- The newest `.*` leads on from where it is resumed, or further on. -/
def retry (c : Chain) (ps : List Pathlet) : List (Nat × Nat) → Bool
  | [] => false
  | (k, i) :: _ => acceptsFrom c i (.anyHops :: ps.drop (k + 1))

/-- What the search answers from the state on. -/
def answer (c : Chain) (ps : List Pathlet) (s : Search) : Bool :=
  match walk c s.place (sections (ps.drop s.next)).1 with
  | some j => placeAll c j (sections (ps.drop s.next)).2
  | none => retry c ps s.decisions

/-- Where the newest `.*` is tried next. -/
def bar (s : Search) : Nat := s.decisions.head?.elim 1 (·.2)

/-- How many steps are left at most: as many as there are pathlets for each place that is left to
the newest `.*`, and as many as are left for the present one. -/
def rank (c : Chain) (ps : List Pathlet) (s : Search) : Nat :=
  (c.inner.length + 1 - s.bar) * (ps.length + 1) + (ps.length - s.next)

/-- The answer is `b`, or it will be, in less than `n` steps more. -/
def Comes (c : Chain) (ps : List Pathlet) (b : Bool) (n : Nat) : Search ⊕ Bool → Prop
  | .inr a => a = b
  | .inl t => answer c ps t = b ∧ t.bar ≤ t.place + 1 ∧ rank c ps t < n

theorem acceptsFrom_anyHops_root {i : Nat} (hi : c.inner.length ≤ i) :
    acceptsFrom c i (.anyHops :: ps) = false := by
  show placeAll c i ((sections ps).1 :: (sections ps).2) = false
  rw [placeAll, place_root hi]

/-- `.*` skips no hop, or it skips one and may skip more. -/
theorem acceptsFrom_anyHops_succ {i : Nat} (hi : i < c.inner.length) :
    acceptsFrom c i (.anyHops :: ps) = match walk c i (sections ps).1 with
      | some j => placeAll c j (sections ps).2
      | none => acceptsFrom c (i + 1) (.anyHops :: ps) := by
  show placeAll c i ((sections ps).1 :: (sections ps).2) = _
  rw [placeAll, place_succ hi]
  cases walk c i (sections ps).1 <;> rfl

/-- Later pathlets leave fewer steps. -/
theorem rank_lt_of_next {bar next bar' next' r l : Nat} (hbar : bar ≤ bar') (hnext : next < l)
    (hnext' : next' = next + 1) :
    (r + 1 - bar') * (l + 1) + (l - next') < (r + 1 - bar) * (l + 1) + (l - next) := by
  have := Nat.mul_le_mul_right (l + 1) (Nat.sub_le_sub_left hbar (r + 1))
  omega

/-- And so does a later place for `.*`. -/
theorem rank_lt_of_bar {bar next next' r l : Nat} (hbar : bar ≤ r) :
    (r + 1 - (bar + 1)) * (l + 1) + (l - next') < (r + 1 - bar) * (l + 1) + (l - next) := by
  have hsub : r + 1 - bar = r + 1 - (bar + 1) + 1 := by omega
  rw [hsub, Nat.succ_mul]
  omega

/-- **Resuming the newest `.*`** answers what it leads to, from where it is resumed. -/
theorem comes_resume (s : Search) :
    Comes c ps (retry c ps s.decisions) (rank c ps s) (resume c s.decisions) := by
  obtain ⟨next, place, decisions⟩ := s
  match decisions with
  | [] => rfl
  | (k, i) :: older =>
    rw [resume]
    split
    · rename_i hroot
      exact (acceptsFrom_anyHops_root (Chain.isRoot_iff.1 hroot)).symm
    · rename_i hroot
      have hi : i < c.inner.length := Nat.lt_of_not_le fun hle ↦ hroot (Chain.isRoot_iff.2 hle)
      exact ⟨(acceptsFrom_anyHops_succ hi).symm, le_rfl, rank_lt_of_bar hi.le⟩

/-- A pathlet other than `.*` leads on, or it fails. -/
theorem step_of_ne {p : Pathlet} (hget : ps[s.next]? = some p) (hany : p ≠ .anyHops) :
    step c ps s = match p.advance c s.place with
      | some j => .inl { s with next := s.next + 1, place := j }
      | none => resume c s.decisions := by
  rw [step, hget]
  cases p <;> first | rfl | exact absurd rfl hany

/-- **A step keeps the answer** and leaves fewer steps to go. -/
theorem comes_step (hs : s.bar ≤ s.place + 1) :
    Comes c ps (answer c ps s) (rank c ps s) (step c ps s) := by
  cases hget : ps[s.next]? with
  | none =>
    have hdrop : ps.drop s.next = [] := List.drop_eq_nil_iff.2 (List.getElem?_eq_none_iff.1 hget)
    rw [step, hget, answer, hdrop]
    rfl
  | some p =>
    obtain ⟨hnext, hp⟩ := List.getElem?_eq_some_iff.1 hget
    have hdrop : ps.drop s.next = p :: ps.drop (s.next + 1) := by
      rw [List.drop_eq_getElem_cons hnext, hp]
    by_cases hany : p = .anyHops
    · subst hany
      have hanswer : answer c ps s = acceptsFrom c s.place (.anyHops :: ps.drop (s.next + 1)) := by
        rw [answer, hdrop]
        rfl
      rw [step, hget, hanswer]
      dsimp only
      split
      · rename_i hroot
        exact (acceptsFrom_anyHops_root (Chain.isRoot_iff.1 hroot)).symm
      · rename_i hroot
        have hplace : s.place < c.inner.length :=
          Nat.lt_of_not_le fun hle ↦ hroot (Chain.isRoot_iff.2 hle)
        exact ⟨(acceptsFrom_anyHops_succ hplace).symm, le_rfl, rank_lt_of_next hs hnext rfl⟩
    · rw [step_of_ne hget hany]
      cases hadvance : p.advance c s.place with
      | none =>
        have hanswer : answer c ps s = retry c ps s.decisions := by
          rw [answer, hdrop, sections_cons hany, walk_cons, hadvance]
          rfl
        rw [hanswer]
        exact comes_resume s
      | some j =>
        refine ⟨?_, hs.trans (Nat.succ_le_succ (Pathlet.le_of_advance hadvance)),
          rank_lt_of_next le_rfl hnext rfl⟩
        rw [answer, answer, hdrop, sections_cons hany, walk_cons, hadvance]
        rfl

/-- **The search stops**, with the answer of its first state. -/
theorem run_eq (hs : s.bar ≤ s.place + 1) (hn : rank c ps s < n) :
    run c ps n s = .inr (answer c ps s) := by
  induction n generalizing s with
  | zero => omega
  | succ n ih =>
    have hcomes : Comes c ps (answer c ps s) (rank c ps s) (step c ps s) := comes_step hs
    rw [run]
    cases hstep : step c ps s with
    | inr b =>
      rw [hstep] at hcomes
      exact congrArg Sum.inr hcomes
    | inl t =>
      rw [hstep] at hcomes
      obtain ⟨hanswer, ht, hrank⟩ := hcomes
      exact (ih ht (hrank.trans_le (Nat.le_of_lt_succ hn))).trans (congrArg Sum.inr hanswer)

/-- The search begins at the probe. -/
def start : Search := ⟨0, 0, []⟩

theorem answer_start : answer c ps start = accepts c ps := by
  show (match walk c 0 (sections ps).1 with
    | some j => placeAll c j (sections ps).2
    | none => false) = acceptsFrom c 0 ps
  rfl

/-- **The search stops** after no more steps than there are places with pathlets to try there, with
the answer of `Path.accepts`, **and it succeeds only where the pathlets lead along the chain.** -/
theorem run_start (c : Chain) (ps : List Pathlet) :
    run c ps ((c.inner.length + 1) * (ps.length + 1)) start = .inr (accepts c ps) ∧
      (accepts c ps = true → ∃ cursor, Course c 0 ps cursor) := by
  refine ⟨?_, exists_course⟩
  have hrank : rank c ps start < (c.inner.length + 1) * (ps.length + 1) := by
    show c.inner.length * (ps.length + 1) + ps.length < _
    rw [Nat.succ_mul]
    omega
  rw [run_eq (s := start) (Nat.le_refl 1) hrank, answer_start]

end Search

end HeaderFlow.Path
