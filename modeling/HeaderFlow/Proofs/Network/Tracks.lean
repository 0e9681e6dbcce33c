import HeaderFlow.Proofs.Network.Measured
import HeaderFlow.Proofs.Network.TwinSteps

/-!
# Computations on twin networks

`Engine.Tracks` says of a computation on one network and one on its twin: **if the first comes to
its end, so does the second**, the networks are twins again, and the answers are related. Nothing is
said of how the first computation can fail. The second one fails in one case only: if each is timed
by a clock of its own, it may be broken off (`Engine.Concludes`). A computation that only concerns
what is lost is *idle*: it is tracked by doing nothing.

There is a rule for sequencing, one for walks along lists that were culled, and two for each
elementary step, as both computations take it or only the first one does.

## Why one direction is enough

The comparisons are made to carry a run over: to wider limits, to a network with longer headers, to
one without a source that is removed in the end. In each of them the first run is the one that is
known to succeed. What the second run does when the first one is broken off is not needed, and there
are comparisons where it differs: with wider limits the second run goes on. Where both are timed by
the same clock, the comparison can be read backwards too, since then budgets agree and each run is a
twin of the other.

## Shape of the rules

For an elementary step `e` there are

* `tracks_e_bind`: both computations begin with the step and go on with what they have found;
* `tracks_e_left`: only the first one begins with it, as what it looks at is lost or not needed by
  the second one;
* `follows_e` and `idle_e` for steps without an answer.

Rules that start with `tracksAt` are about two states that are given, and say what has been found
there. They are for steps whose answer has to be remembered, since a later step needs to know where
it came from. All others hold wherever the networks are twins, and so go on holding when names are
added: naming only grows.

Outcomes of whole changes are compared at the end (`Outcome.Tracks`), for which the computation
starts with a budget that has been reset and ends with reports that may be dropped.
-/

namespace HeaderFlow

open Checked (tracks_ok)

/-- The report without the change that caused it. -/
def Report.bare : Report → Report
  | .loop flow node first _ => .loop flow node first none
  | .blackhole flow node next port _ => .blackhole flow node next port none
  | .shadow rule coverers _ => .shadow rule coverers none
  | .unreachable rule _ => .unreachable rule none
  | .anomaly a => .anomaly a
  | .probe id flow t _ => .probe id flow t none

/-! ### Budgets

The counters of the second run are never ahead. Where both runs are the same they are equal, and
only then can a clock be shared, since it is looked at when the counter of visits says so. -/

/-- Where the second run is not timed, the first does not matter. -/
theorem Timing.Agrees.left {timing : Timing} {a b b' : Budget} (h : timing.Agrees b b')
    (htiming : timing ≠ .same) : timing.Agrees a b' := by
  cases timing with
  | same => exact absurd rfl htiming
  | untimed => exact h
  | own => exact h

namespace Budget.Relaxes

variable {exact : Prop} {timing : Timing} {b b' : Budget}

/-- Both budgets start over. -/
theorem reset (h : b.Relaxes exact timing b') : b.reset.Relaxes exact timing b'.reset := by
  refine ⟨h.maxDepth, h.maxVisits, Nat.le_refl _, Nat.le_refl _, fun _ ↦ ⟨rfl, rfl⟩, ?_⟩
  have htime := h.time
  cases timing with
  | same =>
    obtain ⟨htimeout, hclock, hchanges, -⟩ := htime
    exact ⟨htimeout, hclock, congrArg (· + 1) hchanges, by
      simp only [Budget.reset, htimeout, hclock, hchanges]⟩
  | untimed => exact ⟨htime.1, by simp only [Budget.reset, htime.1, Option.map_none]⟩
  | own => exact htime

/-- Only the first budget starts over. -/
theorem again (h : b.Relaxes exact timing b'.reset) (htiming : timing ≠ .same) :
    b.reset.Relaxes exact timing b'.reset :=
  ⟨h.maxDepth, h.maxVisits, Nat.le_refl _, Nat.le_refl _, fun _ ↦ ⟨rfl, rfl⟩, h.time.left htiming⟩

/-- Only the counters differ. -/
theorem counted {depth visits depth' visits' : Nat} (h : b.Relaxes exact timing b')
    (hdepth : depth' ≤ depth) (hvisits : visits' ≤ visits)
    (hsame : exact → depth' = depth ∧ visits' = visits) :
    Relaxes exact timing { b with depth := depth, visits := visits }
      { b' with depth := depth', visits := visits' } :=
  ⟨h.maxDepth, h.maxVisits, hdepth, hvisits, hsame, by
    have htime := h.time
    cases timing <;> exact htime⟩

/-- **Time is up for the second run only when it is for the first**, unless it has a clock of its
own. -/
theorem isLate_eq_false (h : b.Relaxes exact timing b') (hexact : timing = .same → exact)
    (hown : timing ≠ .own) (hlate : b.isLate = false) : b'.isLate = false := by
  have htime := h.time
  cases timing with
  | same =>
    obtain ⟨-, hclock, hchanges, hdeadline⟩ := htime
    rw [← hlate, isLate, isLate, hclock, hchanges, hdeadline, (h.same (hexact rfl)).2]
  | untimed => rw [isLate, htime.2, Option.any_none, Bool.and_false]
  | own => exact absurd rfl hown

/-- Both runs visit something. -/
theorem count (h : b.Relaxes exact timing b') : b.count.Relaxes exact timing b'.count :=
  h.counted (Nat.succ_le_succ h.depth) (Nat.succ_le_succ h.visits) fun he ↦
    ⟨congrArg (· + 1) (h.same he).1, congrArg (· + 1) (h.same he).2⟩

/-- **A visit that can be entered can be entered within wider limits.** -/
theorem overrun?_count (h : b.Relaxes exact timing b') (hexact : timing = .same → exact)
    (hown : timing ≠ .own) (hcount : b.count.overrun? = none) : b'.count.overrun? = none := by
  have hbudget := h.count
  obtain ⟨hd, hv, hlate⟩ := overrun?_eq_none.1 hcount
  have hmaxDepth := hbudget.maxDepth
  have hmaxVisits := hbudget.maxVisits
  have hdepth := hbudget.depth
  have hvisits := hbudget.visits
  unfold Observed at hv
  exact overrun?_eq_none.2
    ⟨by omega, by unfold Observed; omega, hbudget.isLate_eq_false hexact hown hlate⟩

/-- Both runs leave a visit. -/
theorem leave (h : b.Relaxes exact timing b') : b.leave.Relaxes exact timing b'.leave :=
  h.counted (Nat.sub_le_sub_right h.depth 1) h.visits fun he ↦
    ⟨congrArg (· - 1) (h.same he).1, (h.same he).2⟩

/-- Only the first run visits something. -/
theorem count_left (h : b.Relaxes exact timing b') (hinexact : ¬ exact) :
    b.count.Relaxes exact timing b' :=
  h.counted (Nat.le_succ_of_le h.depth) (Nat.le_succ_of_le h.visits) fun he ↦ absurd he hinexact

end Budget.Relaxes

namespace Comparison

/-- Two runs have come equally far. -/
structure Abreast {n m : Nat} (T : Comparison n m) (ν : Naming) (p q : Progress) : Prop where
  twins : T.Twins ν p.network q.network
  bare : T.exact → q.reports.map Report.bare = p.reports.map Report.bare
  reports : T.events → q.reports = p.reports

end Comparison

namespace Engine

variable {α β γ δ : Type} {n m : Nat} {T : Comparison n m} {ν ν' : Naming} {x : Engine α}
  {y : Engine β} {k : α → Engine γ} {l : β → Engine δ} {R R' : Naming → α → β → Prop}
  {S : Naming → γ → δ → Prop} {key key' : NodeKey} {h h' : Handle}

/-- The second computation comes to its end with `P`. If it is timed by a clock of its own, it may
be broken off instead. -/
def Concludes (T : Comparison n m) (y : Engine β) (q : Progress) (P : β → Progress → Prop) : Prop :=
  (∃ b q', y q = .ok b q' ∧ P b q') ∨ T.timing = .own ∧ ∃ o q', y q = .error (.overrun o) q'

/-- If the first computation comes to its end from where it starts, so does the second from where
that starts. The networks are twins then, and the answers are related. -/
def TracksAt (T : Comparison n m) (ν : Naming) (x : Engine α) (y : Engine β)
    (R : Naming → α → β → Prop) (p q : Progress) : Prop :=
  ∀ a p', x p = .ok a p' →
    Concludes T y q fun b q' ↦ ∃ ν', ν.Grows ν' ∧ T.Abreast ν' p' q' ∧ R ν' a b

/-- The second computation tracks the first one from all twin networks. -/
def Tracks (T : Comparison n m) (ν : Naming) (x : Engine α) (y : Engine β)
    (R : Naming → α → β → Prop) : Prop :=
  ∀ p q, T.Abreast ν p q → TracksAt T ν x y R p q

/-- The second computation comes to its end if the first one does, whatever their answers. -/
abbrev Follows (T : Comparison n m) (ν : Naming) (x : Engine α) (y : Engine β) : Prop :=
  Tracks T ν x y fun _ _ _ ↦ True

/-- The computation only concerns what is lost. -/
abbrev Idle (T : Comparison n m) (ν : Naming) (x : Engine α) : Prop :=
  Follows T ν x (pure () : Engine Unit)

/-! ### Sequencing

The naming grows along a sequence. What was known of names before a step is known after it, so the
rules hand on the larger naming and let what is known grow with it. -/

/-- A sequence comes to its end if both parts do. -/
theorem bind_eq_ok {c : γ} {p p'' : Progress} (hrun : (x >>= k) p = .ok c p'') :
    ∃ a p', x p = .ok a p' ∧ k a p' = .ok c p'' := by
  simp only [Bind.bind, EStateM.bind] at hrun
  cases hx : x p with
  | ok a p' => exact ⟨a, p', rfl, by rwa [hx] at hrun⟩
  | error e p' => simp [hx] at hrun

/-- Less is asked of the end. -/
theorem Concludes.mono {q : Progress} {P Q : β → Progress → Prop} (hy : Concludes T y q P)
    (hPQ : ∀ b q', P b q' → Q b q') : Concludes T y q Q :=
  hy.imp_left fun ⟨b, q', hrun, hb⟩ ↦ ⟨b, q', hrun, hPQ b q' hb⟩

/-- **A sequence that is broken off is broken off in one of its parts.** -/
theorem Concludes.bind {q : Progress} {P : β → Progress → Prop} {Q : δ → Progress → Prop}
    (hy : Concludes T y q P) (hl : ∀ b q', P b q' → Concludes T (l b) q' Q) :
    Concludes T (y >>= l) q Q := by
  obtain ⟨b, q', hrun, hb⟩ | ⟨hown, o, q', hrun⟩ := hy
  · have hsame : (y >>= l) q = l b q' := by simp only [Bind.bind, EStateM.bind, hrun]
    rw [Concludes, hsame]
    exact hl b q' hb
  · exact .inr ⟨hown, o, q', by simp only [Bind.bind, EStateM.bind, hrun]⟩

/-- Doing nothing is not broken off. -/
theorem Concludes.of_pure {b : β} {q : Progress} {P : β → Progress → Prop}
    (hy : Concludes T (pure b) q P) : P b q := by
  obtain ⟨b, q', hrun, hb⟩ | ⟨-, o, q', hrun⟩ := hy
  · obtain ⟨rfl, rfl⟩ := EStateM.Result.ok.inj hrun
    exact hb
  · cases hrun

/-- Both computations come to their ends. -/
theorem tracksAt_of_run {a : α} {b : β} {p p' q q' : Progress} (hx : x p = .ok a p')
    (hy : y q = .ok b q') (hν : ν.Grows ν') (habreast : T.Abreast ν' p' q') (hR : R ν' a b) :
    TracksAt T ν x y R p q := by
  intro a' p'' hrun
  obtain ⟨rfl, rfl⟩ := EStateM.Result.ok.inj (hx.symm.trans hrun)
  exact .inl ⟨b, q', hy, ν', hν, habreast, hR⟩

/-- A rule for all twin networks holds at those at hand. -/
theorem Tracks.here {p q : Progress} (hx : Tracks T ν x y R) (habreast : T.Abreast ν p q) :
    TracksAt T ν x y R p q := hx p q habreast

/-- Answers that are related are given without doing anything. -/
theorem tracks_pure {a : α} {b : β} (hR : R ν a b) :
    Tracks T ν (pure a) (pure b) R := fun _ _ habreast ↦
  tracksAt_of_run rfl rfl (.refl ν) habreast hR

theorem follows_pure {a : α} {b : β} : Follows T ν (pure a) (pure b) := tracks_pure trivial

/-- Less is asked of the answers. -/
theorem Tracks.imp (hx : Tracks T ν x y R) (hR : ∀ ν' a b, ν.Grows ν' → R ν' a b → R' ν' a b) :
    Tracks T ν x y R' := by
  intro p q habreast a p' hrun
  refine (hx p q habreast a p' hrun).mono fun b q' ⟨ν', hν, habreast', hab⟩ ↦ ?_
  exact ⟨ν', hν, habreast', hR ν' a b hν hab⟩

/-- **A sequence tracks another one part by part.** -/
theorem TracksAt.bind {p q : Progress} (hx : TracksAt T ν x y R p q)
    (hk : ∀ ν' a b p' q', ν.Grows ν' → x p = .ok a p' → T.Abreast ν' p' q' → R ν' a b →
      TracksAt T ν' (k a) (l b) S p' q') : TracksAt T ν (x >>= k) (y >>= l) S p q := by
  intro c p'' hrun
  obtain ⟨a, p', hx₁, hrun⟩ := bind_eq_ok hrun
  refine (hx a p' hx₁).bind fun b q' ⟨ν', hν, habreast', hab⟩ ↦ ?_
  refine (hk ν' a b p' q' hν hx₁ habreast' hab c p'' hrun).mono fun d q'' ⟨ν'', hν', hend⟩ ↦ ?_
  exact ⟨ν'', hν.trans hν', hend⟩

/-- A sequence tracks another one part by part, from all twin networks. -/
theorem Tracks.bind (hx : Tracks T ν x y R)
    (hk : ∀ ν' a b, ν.Grows ν' → R ν' a b → Tracks T ν' (k a) (l b) S) :
    Tracks T ν (x >>= k) (y >>= l) S := fun p q habreast ↦
  (hx p q habreast).bind fun ν' a b p' q' hν _ habreast' hab ↦ hk ν' a b hν hab p' q' habreast'

/-- The first part is not tracked by anything. -/
theorem Tracks.bind_left {R : Naming → α → Unit → Prop} {S : Naming → γ → β → Prop}
    (hx : Tracks T ν x (pure () : Engine Unit) R)
    (hk : ∀ ν' a, ν.Grows ν' → R ν' a () → Tracks T ν' (k a) y S) : Tracks T ν (x >>= k) y S :=
  Tracks.bind (y := (pure () : Engine Unit)) (l := fun _ ↦ y) hx fun ν' a _ ↦ hk ν' a

theorem TracksAt.bind_left {p q : Progress} {R : Naming → α → Unit → Prop}
    {S : Naming → γ → β → Prop} (hx : TracksAt T ν x (pure () : Engine Unit) R p q)
    (hk : ∀ ν' a p', ν.Grows ν' → x p = .ok a p' → T.Abreast ν' p' q → R ν' a () →
      TracksAt T ν' (k a) y S p' q) : TracksAt T ν (x >>= k) y S p q := by
  intro c p'' hrun
  obtain ⟨a, p', hx₁, hrun⟩ := bind_eq_ok hrun
  obtain ⟨ν', hν, habreast', hab⟩ := (hx a p' hx₁).of_pure
  refine (hk ν' a p' hν hx₁ habreast' hab c p'' hrun).mono fun d q'' ⟨ν'', hν', hend⟩ ↦ ?_
  exact ⟨ν'', hν.trans hν', hend⟩

/-- A change of the answers keeps them related. -/
theorem Tracks.map {u : α → γ} {v : β → δ} (hx : Tracks T ν x y R)
    (hS : ∀ ν' a b, ν.Grows ν' → R ν' a b → S ν' (u a) (v b)) :
    Tracks T ν (u <$> x) (v <$> y) S := by
  rw [map_eq_pure_bind, map_eq_pure_bind]
  exact hx.bind fun ν' a b hν hab ↦ tracks_pure (hS ν' a b hν hab)

/-- Answers that nothing is asked of can be dropped. -/
theorem Tracks.discard (hx : Tracks T ν x y R) :
    Follows T ν (Functor.discard x) (Functor.discard y) :=
  Tracks.map hx fun _ _ _ _ _ ↦ trivial

theorem Tracks.discard_left {R : Naming → α → Unit → Prop}
    (hx : Tracks T ν x (pure () : Engine Unit) R) : Idle T ν (Functor.discard x) :=
  Tracks.map (v := fun _ ↦ ()) hx fun _ _ _ _ _ ↦ trivial

/-- Both computations go on. -/
theorem Follows.next {x y : Engine Unit} {k : Unit → Engine γ} {l : Unit → Engine δ}
    (hx : Follows T ν x y) (hk : ∀ ν', ν.Grows ν' → Tracks T ν' (k ()) (l ()) S) :
    Tracks T ν (x >>= k) (y >>= l) S := Tracks.bind hx fun ν' _ _ hν _ ↦ hk ν' hν

/-- The first computation goes on. -/
theorem Idle.next {x : Engine Unit} {k : Unit → Engine γ} {S : Naming → γ → β → Prop}
    (hx : Idle T ν x) (hk : ∀ ν', ν.Grows ν' → Tracks T ν' (k ()) y S) :
    Tracks T ν (x >>= k) y S := Tracks.bind_left hx fun ν' _ hν _ ↦ hk ν' hν

/-- More names were known before. -/
theorem TracksAt.of_grows {p q : Progress} (hx : TracksAt T ν' x y R p q) (hν : ν.Grows ν') :
    TracksAt T ν x y R p q := by
  intro a p' hrun
  refine (hx a p' hrun).mono fun b q' ⟨ν'', hν', hend⟩ ↦ ?_
  exact ⟨ν'', hν.trans hν', hend⟩

/-- What is known of twins may be used. -/
theorem tracks_of_twins (hx : (∃ net net', T.Twins ν net net') → Tracks T ν x y R) :
    Tracks T ν x y R := fun p q habreast ↦ hx ⟨_, _, habreast.twins⟩ p q habreast

/-- If a flow is lost, the runs are not the same, and that may be used. -/
theorem idle_of_lost (hh : ν.flow.Lost () h) (hx : ¬ T.exact → Idle T ν x) : Idle T ν x :=
  tracks_of_twins fun ⟨_, _, hT⟩ ↦ hx (hT.inexact hh)

/-- **A walk along a culled list** is idle at what was left out. -/
theorem follows_forM {P : α → β → Prop} {Q : α → Prop} {as : List α} {bs : List β}
    {x : α → Engine Unit} {y : β → Engine Unit} (hl : Culled P Q as bs)
    (hkeep : ∀ ν' a b, ν.Grows ν' → P a b → Follows T ν' (x a) (y b))
    (hskip : ∀ ν' a, ν.Grows ν' → Q a → Idle T ν' (x a)) : Follows T ν (as.forM x) (bs.forM y) := by
  induction hl generalizing ν with
  | nil => exact follows_pure
  | @keep a b as bs hab _ ih =>
    refine Tracks.bind (k := fun _ ↦ as.forM x) (l := fun _ ↦ bs.forM y) (hkeep ν a b (.refl ν) hab)
      fun ν' _ _ hν _ ↦ ?_
    exact ih (fun ν'' a b hν' ↦ hkeep ν'' a b (hν.trans hν')) fun ν'' a hν' ↦
      hskip ν'' a (hν.trans hν')
  | @skip a as bs ha _ ih =>
    refine Tracks.bind_left (k := fun _ ↦ as.forM x) (hskip ν a (.refl ν) ha) fun ν' _ hν _ ↦ ?_
    exact ih (fun ν'' a b hν' ↦ hkeep ν'' a b (hν.trans hν')) fun ν'' a hν' ↦
      hskip ν'' a (hν.trans hν')

/-- Nothing is left out. -/
theorem follows_forM_all {P : α → β → Prop} {as : List α} {bs : List β} {x : α → Engine Unit}
    {y : β → Engine Unit} (hl : Culled P (fun _ ↦ False) as bs)
    (hkeep : ∀ ν' a b, ν.Grows ν' → P a b → Follows T ν' (x a) (y b)) :
    Follows T ν (as.forM x) (bs.forM y) :=
  follows_forM hl hkeep fun _ _ _ hno ↦ hno.elim

/-- Both walk along the same list. -/
theorem follows_forM_same {as : List α} {x y : α → Engine Unit}
    (hxy : ∀ ν' a, ν.Grows ν' → Follows T ν' (x a) (y a)) :
    Follows T ν (as.forM x) (as.forM y) := by
  refine follows_forM_all (P := Eq) ?_ ?_
  · induction as with
    | nil => exact .nil
    | cons a as ih => exact .keep rfl ih
  · rintro ν' a _ hν rfl
    exact hxy ν' a hν

theorem idle_forM {as : List α} {x : α → Engine Unit}
    (hx : ∀ a ∈ as, ∀ ν', ν.Grows ν' → Idle T ν' (x a)) : Idle T ν (as.forM x) :=
  follows_forM (y := fun _ : Unit ↦ pure ()) (P := fun _ _ ↦ False) (Q := (· ∈ as))
    (.all_skip fun _ ha ↦ ha) (fun _ _ _ _ hno ↦ hno.elim) fun ν' a hν ha ↦ hx a ha ν' hν

/-! ### Reading

For each kind of thing that is looked up: both computations do so, or the first one alone. -/

/-- Both computations look at the whole network. -/
theorem tracks_network_bind {k : Network → Engine γ} {l : Network → Engine δ}
    (hk : ∀ net net', T.Twins ν net net' → Tracks T ν (k net) (l net') S) :
    Tracks T ν (network >>= k) (network >>= l) S := fun p q habreast ↦
  hk p.network q.network habreast.twins p q habreast

theorem tracks_network_left {k : Network → Engine γ} {S : Naming → γ → β → Prop}
    (hk : ∀ net net', T.Twins ν net net' → Tracks T ν (k net) y S) :
    Tracks T ν (network >>= k) y S := fun p q habreast ↦
  hk p.network q.network habreast.twins p q habreast

/-- **A question is tracked by one that has the answer to it.** -/
theorem tracksAt_ask_bind {u : Network → Checked α} {v : Network → Checked β} {P : α → β → Prop}
    {p q : Progress} (huv : Checked.Tracks (u p.network) (v q.network) P)
    (hk : ∀ a b, u p.network = .ok a → P a b → TracksAt T ν (k a) (l b) S p q) :
    TracksAt T ν (ask u >>= k) (ask v >>= l) S p q := by
  intro c p' hrun
  rw [ask_bind_run] at hrun
  rw [Concludes, ask_bind_run]
  cases hu : u p.network with
  | error f => simp [hu] at hrun
  | ok a =>
    rw [hu] at hrun
    obtain ⟨b, hv, hab⟩ := huv a hu
    rw [hv]
    exact hk a b hu hab c p' hrun

/-- Both computations ask a question, and the answers are related. -/
theorem tracks_ask_bind {u : Network → Checked α} {v : Network → Checked β} {P : α → β → Prop}
    (huv : ∀ net net', T.Twins ν net net' → Checked.Tracks (u net) (v net') P)
    (hk : ∀ a b, P a b → Tracks T ν (k a) (l b) S) : Tracks T ν (ask u >>= k) (ask v >>= l) S :=
  fun p q habreast ↦ tracksAt_ask_bind (huv _ _ habreast.twins) fun a b _ hab ↦
    hk a b hab p q habreast

theorem tracks_ask {u : Network → Checked α} {v : Network → Checked β} {P : α → β → Prop}
    (huv : ∀ net net', T.Twins ν net net' → Checked.Tracks (u net) (v net') P) :
    Tracks T ν (ask u) (ask v) fun _ ↦ P := by
  rw [← bind_pure (ask u), ← bind_pure (ask v)]
  exact tracks_ask_bind huv fun _ _ hab ↦ tracks_pure hab

theorem tracksAt_ask_left {u : Network → Checked α} {S : Naming → γ → β → Prop} {p q : Progress}
    (hk : ∀ a, u p.network = .ok a → TracksAt T ν (k a) y S p q) :
    TracksAt T ν (ask u >>= k) y S p q := by
  intro c p' hrun
  rw [ask_bind_run] at hrun
  cases hu : u p.network with
  | error f => simp [hu] at hrun
  | ok a =>
    rw [hu] at hrun
    exact hk a hu c p' hrun

theorem tracks_ask_left {u : Network → Checked α} {S : Naming → γ → β → Prop}
    (hk : ∀ net net' a, T.Twins ν net net' → u net = .ok a → Tracks T ν (k a) y S) :
    Tracks T ν (ask u >>= k) y S := fun p q habreast ↦
  tracksAt_ask_left fun a ha ↦ hk _ _ a habreast.twins ha p q habreast

/-- A question changes nothing. -/
theorem idle_ask {u : Network → Checked α} : Idle T ν (ask u) := by
  rw [← bind_pure (ask u)]
  exact tracks_ask_left fun _ _ _ _ _ ↦ tracks_pure trivial

/-- Both computations check something. -/
theorem tracks_check_bind {u : Checked α} {v : Checked β} {P : α → β → Prop}
    (huv : Checked.Tracks u v P) (hk : ∀ a b, P a b → Tracks T ν (k a) (l b) S) :
    Tracks T ν (check u >>= k) (check v >>= l) S := tracks_ask_bind (fun _ _ _ ↦ huv) hk

theorem tracks_check_left {u : Checked α} {S : Naming → γ → β → Prop}
    (hk : ∀ a, u = .ok a → Tracks T ν (k a) y S) : Tracks T ν (check u >>= k) y S :=
  tracks_ask_left fun _ _ a _ ↦ hk a

/-- Both computations look up a node that has its counterpart. -/
theorem tracks_node_bind {k : Node → Engine γ} {l : Node → Engine δ} (hkey : ν.node.Kept key key')
    (hk : ∀ a b, T.Nodes ν a b → Tracks T ν (k a) (l b) S) :
    Tracks T ν (node key >>= k) (node key' >>= l) S :=
  tracks_ask_bind (fun _ _ hT ↦ hT.tracks_node hkey) hk

/-- The same, and the node is known to be the one that is listed there. -/
theorem tracksAt_node_bind {k : Node → Engine γ} {l : Node → Engine δ} {p q : Progress}
    (habreast : T.Abreast ν p q) (hkey : ν.node.Kept key key')
    (hk : ∀ a b, p.network.nodeAt? key = some a → T.Nodes ν a b → TracksAt T ν (k a) (l b) S p q) :
    TracksAt T ν (node key >>= k) (node key' >>= l) S p q :=
  tracksAt_ask_bind (habreast.twins.tracks_node hkey) fun a b ha ↦ hk a b (node_eq_ok.1 ha)

theorem tracksAt_node_left {k : Node → Engine γ} {S : Naming → γ → β → Prop} {p q : Progress}
    (hk : ∀ a, p.network.nodeAt? key = some a → TracksAt T ν (k a) y S p q) :
    TracksAt T ν (node key >>= k) y S p q :=
  tracksAt_ask_left fun a ha ↦ hk a (node_eq_ok.1 ha)

/-- Only the first computation looks up a node. -/
theorem tracks_node_left {k : Node → Engine γ} {S : Naming → γ → β → Prop}
    (hk : ∀ net net' a, T.Twins ν net net' → net.nodeAt? key = some a → Tracks T ν (k a) y S) :
    Tracks T ν (node key >>= k) y S := fun p q habreast ↦
  tracksAt_node_left fun a ha ↦ hk _ _ a habreast.twins ha p q habreast

/-- Both computations look up a flow, which is known to be the one that is stored there. -/
theorem tracksAt_flow_bind {k : Flow → Engine γ} {l : Flow → Engine δ} {p q : Progress}
    (habreast : T.Abreast ν p q) (hh : ν.flow.Kept h h')
    (hk : ∀ f f', p.network.flows.find? h = some f → T.Flows ν f f' →
      TracksAt T ν (k f) (l f') S p q) :
    TracksAt T ν (flow h >>= k) (flow h' >>= l) S p q := by
  refine tracksAt_ask_bind (fun f hf ↦ ?_) fun f f' hf ↦ hk f f' (get_eq_ok.1 hf)
  obtain ⟨f', hf', hff⟩ := habreast.twins.flows.of_live hh (get_eq_ok.1 hf)
  exact ⟨f', get_eq_ok.2 hf', hff⟩

theorem tracks_flow_bind {k : Flow → Engine γ} {l : Flow → Engine δ} (hh : ν.flow.Kept h h')
    (hk : ∀ f f', T.Flows ν f f' → Tracks T ν (k f) (l f') S) :
    Tracks T ν (flow h >>= k) (flow h' >>= l) S := fun p q habreast ↦
  tracksAt_flow_bind habreast hh fun f f' _ hff ↦ hk f f' hff p q habreast

theorem tracksAt_flow_left {k : Flow → Engine γ} {S : Naming → γ → β → Prop} {p q : Progress}
    (hk : ∀ f, p.network.flows.find? h = some f → TracksAt T ν (k f) y S p q) :
    TracksAt T ν (flow h >>= k) y S p q :=
  tracksAt_ask_left fun f hf ↦ hk f (get_eq_ok.1 hf)

/-- The first computation looks up a flow that is lost. -/
theorem tracks_flow_left {k : Flow → Engine γ} {S : Naming → γ → β → Prop}
    (hh : ν.flow.Lost () h) (hk : ∀ f, Comparison.LostFlow ν f → Tracks T ν (k f) y S) :
    Tracks T ν (flow h >>= k) y S := fun p q habreast ↦ tracksAt_flow_left fun f hf ↦
  hk f (habreast.twins.flows.lost h () hh f hf) p q habreast

theorem tracks_pipe_bind {k : Pipe → Engine γ} {l : Pipe → Engine δ} (hh : ν.pipe.Kept h h')
    (hk : ∀ p p', T.Pipes ν p p' → Tracks T ν (k p) (l p') S) :
    Tracks T ν (pipe h >>= k) (pipe h' >>= l) S := by
  refine tracks_ask_bind (fun net net' hT p hp ↦ ?_) hk
  obtain ⟨p', hp', hpp⟩ := hT.pipes.of_live hh (get_eq_ok.1 hp)
  exact ⟨p', get_eq_ok.2 hp', hpp⟩

/-- The node of any pipe has a name. -/
theorem tracks_pipe_left {k : Pipe → Engine γ} {S : Naming → γ → β → Prop}
    (hk : ∀ p, (∃ x, ν.node p.node = some x) →
      (∀ side, ν.pipe.Lost side h → Comparison.LostPipe ν side p) → Tracks T ν (k p) y S) :
    Tracks T ν (pipe h >>= k) y S := by
  refine tracks_ask_left fun net net' p hT hp ↦ hk p ?_ fun side hh ↦
    hT.pipes.lost h side hh p (get_eq_ok.1 hp)
  have hp := get_eq_ok.1 hp
  obtain ⟨x, hx⟩ := hT.pipes.named h p hp
  cases x with
  | kept h' =>
    obtain ⟨p', -, hpp⟩ := hT.pipes.of_live hx hp
    exact ⟨_, hpp.node⟩
  | lost side =>
    have hlost := hT.pipes.lost h side hx p hp
    cases side with
    | front => exact ⟨_, hlost.1⟩
    | rear =>
      obtain ⟨k, hk⟩ := hlost.1
      exact ⟨_, hk⟩

theorem tracks_flow?_bind {k : Option Flow → Engine γ} {l : Option Flow → Engine δ}
    (hh : ν.flow.Kept h h')
    (hk : ∀ o o', Option.Rel (T.Flows ν) o o' → Tracks T ν (k o) (l o') S) :
    Tracks T ν (flow? h >>= k) (flow? h' >>= l) S := fun p q habreast ↦
  hk _ _ (habreast.twins.flows.kept h h' hh) p q habreast

theorem tracks_flow?_left {k : Option Flow → Engine γ} {S : Naming → γ → β → Prop}
    (hh : ν.flow.Lost () h)
    (hk : ∀ o, (∀ f, o = some f → Comparison.LostFlow ν f) → Tracks T ν (k o) y S) :
    Tracks T ν (flow? h >>= k) y S := fun p q habreast ↦
  hk _ (habreast.twins.flows.lost h () hh) p q habreast

theorem tracks_pipe?_bind {k : Option Pipe → Engine γ} {l : Option Pipe → Engine δ}
    (hh : ν.pipe.Kept h h')
    (hk : ∀ o o', Option.Rel (T.Pipes ν) o o' → Tracks T ν (k o) (l o') S) :
    Tracks T ν (pipe? h >>= k) (pipe? h' >>= l) S := fun p q habreast ↦
  hk _ _ (habreast.twins.pipes.kept h h' hh) p q habreast

/-- The first computation asks for a pipe. If its handle is lost, so is the pipe. -/
theorem tracks_pipe?_left {k : Option Pipe → Engine γ} {S : Naming → γ → β → Prop}
    (hk : ∀ o, (∀ p side, o = some p → ν.pipe.Lost side h → Comparison.LostPipe ν side p) →
      Tracks T ν (k o) y S) : Tracks T ν (pipe? h >>= k) y S := fun p q habreast ↦
  hk _ (fun a side ha hh ↦ habreast.twins.pipes.lost h side hh a ha) p q habreast

/-! ### Updating

An update is a function on networks, so it is enough that it leads from twins to twins. What kind of
thing it changes decides what has to be shown of it. -/

/-- **An update is tracked by one that leads to a twin again.** -/
theorem tracks_update {u v : Network → Network} {R : Naming → Unit → Unit → Prop}
    (huv : ∀ net net', T.Twins ν net net' →
      ∃ ν', ν.Grows ν' ∧ T.Twins ν' (u net) (v net') ∧ R ν' () ()) :
    Tracks T ν (update u) (update v) R := by
  intro p q habreast
  obtain ⟨ν', hν, hT, hR⟩ := huv _ _ habreast.twins
  exact tracksAt_of_run rfl rfl hν ⟨hT, habreast.bare, habreast.reports⟩ hR

theorem follows_update {u v : Network → Network}
    (huv : ∀ net net', T.Twins ν net net' → T.Twins ν (u net) (v net')) :
    Follows T ν (update u) (update v) :=
  tracks_update fun net net' hT ↦ ⟨ν, .refl ν, huv net net' hT, trivial⟩

theorem idle_update {u : Network → Network}
    (hu : ∀ net net', T.Twins ν net net' → T.Twins ν (u net) net') : Idle T ν (update u) :=
  fun _ _ habreast ↦ tracksAt_of_run rfl rfl (.refl ν)
    ⟨hu _ _ habreast.twins, habreast.bare, habreast.reports⟩ trivial

theorem idleAt_update {u : Network → Network} {p q : Progress} (habreast : T.Abreast ν p q)
    (hu : T.Twins ν (u p.network) q.network) :
    TracksAt T ν (update u) (pure () : Engine Unit) (fun _ _ _ ↦ True) p q :=
  tracksAt_of_run rfl rfl (.refl ν) ⟨hu, habreast.bare, habreast.reports⟩ trivial

/-- A node is changed as its counterpart is. It keeps its name. -/
theorem follows_updateNode {u v : Node → Node} (hkey : ν.node.Kept key key')
    (hname : ∀ k, (u k).name = k.name ∧ (v k).name = k.name)
    (hu : ∀ k k', T.Nodes ν k k' → T.Nodes ν (u k) (v k')) :
    Follows T ν (updateNode key u) (updateNode key' v) :=
  follows_update fun _ _ hT ↦ hT.updateNode hkey hname fun k k' _ _ ↦ hu k k'

/-- The node is the one that was asked before. -/
theorem followsAt_updateNode {u v : Node → Node} {p q : Progress} {a : Node}
    (habreast : T.Abreast ν p q) (hkey : ν.node.Kept key key')
    (hnode : p.network.nodeAt? key = some a)
    (hname : ∀ k, (u k).name = k.name ∧ (v k).name = k.name)
    (hu : ∀ k', T.Nodes ν a k' → T.Nodes ν (u a) (v k')) :
    TracksAt T ν (updateNode key u) (updateNode key' v) (fun _ _ _ ↦ True) p q := by
  have hT := habreast.twins
  refine tracksAt_of_run rfl rfl (.refl ν) ⟨hT.updateNode hkey hname fun k k' hk hkkey hkk ↦ ?_,
    habreast.bare, habreast.reports⟩ trivial
  have hsame := Network.nodeAt?_of_mem hT.nodup hk
  rw [hkkey, hnode] at hsame
  obtain rfl := Option.some.inj hsame
  exact hu k' hkk

/-- **A probe that was asked has noted something.** -/
theorem followsAt_setProbe {p q : Progress} {a : Node} {r s s' : Probe} (habreast : T.Abreast ν p q)
    (hkey : ν.node.Kept key key') (hnode : p.network.nodeAt? key = some a) (hr : a.probe? = some r)
    (hs : T.Probes ν s s') :
    TracksAt T ν (updateNode key fun k ↦ { k with role := .probe s })
      (updateNode key' fun k ↦ { k with role := .probe s' }) (fun _ _ _ ↦ True) p q :=
  followsAt_updateNode habreast hkey hnode (fun _ ↦ ⟨rfl, rfl⟩) fun _ hk ↦ hk.setProbe hr hs

/-- A node is changed so that it stays alike, or stays lost. -/
theorem idle_updateNode {u : Node → Node} (hname : ∀ k, (u k).name = k.name)
    (hu : ∀ k k', k.key = key → T.Nodes ν k k' → T.Nodes ν (u k) k')
    (hlost : ∀ k, k.key = key → T.LostNode ν k → T.LostNode ν (u k)) :
    Idle T ν (updateNode key u) :=
  idle_update fun _ _ hT ↦ hT.updateNode_lost hname (fun k k' _ ↦ hu k k') hlost

theorem follows_alterNode {u v : Node → Node} (hkey : ν.node.Kept key key')
    (hname : ∀ k, (u k).name = k.name ∧ (v k).name = k.name)
    (hu : ∀ k k', T.Nodes ν k k' → T.Nodes ν (u k) (v k')) :
    Follows T ν (alterNode key u) (alterNode key' v) :=
  tracks_node_bind hkey fun _ _ _ ↦ follows_updateNode hkey hname hu

theorem idle_alterNode {u : Node → Node} (hname : ∀ k, (u k).name = k.name)
    (hu : ∀ k k', k.key = key → T.Nodes ν k k' → T.Nodes ν (u k) k')
    (hlost : ∀ k, k.key = key → T.LostNode ν k → T.LostNode ν (u k)) : Idle T ν (alterNode key u) :=
  tracks_node_left fun _ _ _ _ _ ↦ idle_updateNode hname hu hlost

/-- The way of a flow stays as it is, and nothing new hangs on it. -/
structure Lightens (u : Flow → Flow) : Prop where
  parent : ∀ f, (u f).parent = f.parent
  children : ∀ f, (u f).children ⊆ f.children

/-- Flows can still be ranked after one was lightened. -/
theorem Lightens.ranked {u : Flow → Flow} (hu : Lightens u) {net : Network} (rank : Handle → Nat)
    (hR : Ranked rank net.flows) : Ranked rank (net.flows.modify h u) :=
  hR.modify fun f _ ↦ ⟨hu.parent f, fun _ hc ↦ .inl (hu.children f hc)⟩

/-- A flow is changed as its counterpart is. -/
theorem follows_updateFlow {u v : Flow → Flow} (hh : ν.flow.Kept h h') (hlight : Lightens u)
    (hu : ∀ f f', T.Flows ν f f' → T.Flows ν (u f) (v f')) :
    Follows T ν (updateFlow h u) (updateFlow h' v) :=
  follows_update fun _ _ hT ↦ hT.updateFlow hh hu hlight.ranked

theorem idle_updateFlow {u : Flow → Flow} (hh : ν.flow.Lost () h) (hlight : Lightens u)
    (hu : ∀ f, Comparison.LostFlow ν f → Comparison.LostFlow ν (u f)) :
    Idle T ν (updateFlow h u) :=
  idle_update fun _ _ hT ↦ hT.updateFlow_lost hh hu hlight.ranked

/-- **A flow and its counterpart are stored.** -/
theorem tracks_insertFlow {u v : Handle → Flow}
    (hu : ∀ ν' h h', ν.Grows ν' → ν'.flow.Kept h h' → T.Flows ν' (u h) (v h'))
    (hchildren : ∀ h, (u h).children = [])
    (hparent : ∀ h p, (u h).parent = some p → ∃ x, ν.flow p = some x) :
    Tracks T ν (insertFlow u) (insertFlow v) fun ν' h h' ↦ ν'.flow.Kept h h' := by
  intro p q habreast
  have hT := habreast.twins
  have hν := hT.grows_putFlow (.kept q.network.flows.nextHandle)
  exact tracksAt_of_run rfl rfl hν
    ⟨hT.insertFlow (hu _ _ _ hν Lexicon.put_self) (hchildren _) (hparent _), habreast.bare,
      habreast.reports⟩ Lexicon.put_self

/-- **A lost flow is stored.** -/
theorem idle_insertFlow {u : Handle → Flow} (hinexact : ¬ T.exact)
    (hu : ∀ ν' h, ν.Grows ν' → ν'.flow.Lost () h → Comparison.LostFlow ν' (u h))
    (hchildren : ∀ h, (u h).children = [])
    (hparent : ∀ h p, (u h).parent = some p → ∃ x, ν.flow p = some x) :
    Tracks T ν (insertFlow u) (pure () : Engine Unit) fun ν' h _ ↦ ν'.flow.Lost () h := by
  intro p q habreast
  have hT := habreast.twins
  have hν := hT.grows_putFlow (.lost ())
  exact tracksAt_of_run rfl rfl hν
    ⟨hT.insertFlow_lost hinexact (hu _ _ hν Lexicon.put_self) (hchildren _)
    (hparent _), habreast.bare, habreast.reports⟩ Lexicon.put_self

/-! ### Reports

If nothing is lost, the same is reported, except for the change that caused it where the runs differ
in that. If something is lost, reports are not compared at all. -/

theorem tracks_event_bind {k : Option Event → Engine γ} {l : Option Event → Engine δ}
    (hk : ∀ e e', (T.events → e' = e) → Tracks T ν (k e) (l e') S) :
    Tracks T ν (event >>= k) (event >>= l) S := fun p q habreast ↦
  hk _ _ habreast.twins.events p q habreast

/-- Reports that are alike are made. -/
theorem follows_report {r r' : Report} (hbare : T.exact → r'.bare = r.bare)
    (hsame : T.events → r' = r) : Follows T ν (report r) (report r') := by
  intro p q habreast
  refine tracksAt_of_run rfl rfl (.refl ν) ⟨habreast.twins, fun he ↦ ?_, fun he ↦ ?_⟩ trivial
  · exact congrArg₂ List.cons (hbare he) (habreast.bare he)
  · exact congrArg₂ List.cons (hsame he) (habreast.reports he)

theorem follows_setEvent {e e' : Event} (he : T.events → e' = e) :
    Follows T ν (setEvent e) (setEvent e') :=
  follows_update fun _ _ hT ↦ { hT with events := fun h ↦ congrArg some (he h) }

/-- The latest change is noted, and nothing else. -/
theorem tracksAt_setEvent_bind {e e' : Event} {k : Unit → Engine γ} {l : Unit → Engine δ}
    {p q : Progress} (habreast : T.Abreast ν p q) (he : T.events → e' = e)
    (hk : T.Abreast ν { p with network := { p.network with lastEvent := some e } }
        { q with network := { q.network with lastEvent := some e' } } →
      TracksAt T ν (k ()) (l ()) S { p with network := { p.network with lastEvent := some e } }
        { q with network := { q.network with lastEvent := some e' } }) :
    TracksAt T ν (setEvent e >>= k) (setEvent e' >>= l) S p q :=
  hk ⟨{ habreast.twins with events := fun h ↦ congrArg some (he h) }, habreast.bare,
    habreast.reports⟩

theorem idle_setEvent {e : Event} (hinexact : ¬ T.exact) : Idle T ν (setEvent e) :=
  idle_update fun _ _ hT ↦ { hT with events := fun h ↦ absurd (T.exact_of_events h) hinexact }

/-- The computation makes reports and nothing else. -/
def Tells (x : Engine Unit) : Prop := ∀ p, ∃ reports, x p = .ok () { p with reports := reports }

theorem tells_pure : Tells (pure ()) := fun p ↦ ⟨p.reports, rfl⟩

theorem tells_event_report (r : Option Event → Report) : Tells (do report (r (← event))) := fun p ↦
  ⟨r p.network.lastEvent :: p.reports, rfl⟩

theorem tells_forM {as : List α} {x : α → Engine Unit} (hx : ∀ a, Tells (x a)) :
    Tells (as.forM x) := by
  induction as with
  | nil => exact tells_pure
  | cons a as ih =>
    intro p
    obtain ⟨reports, hfirst⟩ := hx a p
    obtain ⟨reports', hrest⟩ := ih { p with reports := reports }
    refine ⟨reports', ?_⟩
    change ((x a >>= fun _ ↦ as.forM x) : Engine Unit) p = _
    simp only [Bind.bind, EStateM.bind, hfirst, hrest]

/-- **If something is lost, reports can be any.** -/
theorem follows_tells {x y : Engine Unit} (hinexact : ¬ T.exact) (hx : Tells x) (hy : Tells y) :
    Follows T ν x y := by
  intro p q habreast
  obtain ⟨reports, hx⟩ := hx p
  obtain ⟨reports', hy⟩ := hy q
  exact tracksAt_of_run hx hy (.refl ν) ⟨habreast.twins, fun he ↦ absurd he hinexact, fun he ↦
    absurd (T.exact_of_events he) hinexact⟩ trivial

/-- If something is lost, a computation that only makes reports is tracked by nothing. -/
theorem idle_tells {x : Engine Unit} (hinexact : ¬ T.exact) (hx : Tells x) : Idle T ν x :=
  follows_tells hinexact hx tells_pure

/-! ### Visits

A visit counts in both runs, so the second one enters whenever the first one does, unless it is
timed by a clock of its own. A visit of a lost flow counts in the first run only, which keeps it
ahead. -/

theorem follows_leave : Follows T ν leave leave := follows_update fun _ _ hT ↦
  { hT with budget := hT.budget.leave }

/-- **A visit is tracked by a visit.** -/
theorem followsAt_visit {body body' : Engine Unit} {p q : Progress} (habreast : T.Abreast ν p q)
    (hbody : ∀ p₁ q₁, p₁.network = { p.network with budget := p.network.budget.count } →
      T.Abreast ν p₁ q₁ → TracksAt T ν body body' (fun _ _ _ ↦ True) p₁ q₁) :
    TracksAt T ν (visit body) (visit body') (fun _ _ _ ↦ True) p q := by
  have hT := habreast.twins
  refine TracksAt.bind (R := fun ν' _ _ ↦ ν' = ν) (fun a p' hrun ↦ ?_) ?_
  · rw [enter_run] at hrun
    cases hcount : p.network.budget.count.overrun? with
    | some o => simp [hcount] at hrun
    | none =>
      rw [hcount] at hrun
      obtain ⟨-, rfl⟩ := EStateM.Result.ok.inj hrun
      -- the second run passes a limit only if it is the limit of time, and its clock is another one
      cases hcount' : q.network.budget.count.overrun? with
      | none =>
          exact .inl ⟨(), { q with network := { q.network with budget := q.network.budget.count } },
            by rw [enter_run, hcount'], ν, .refl ν,
          ⟨{ hT with budget := hT.budget.count }, habreast.bare, habreast.reports⟩, rfl⟩
      | some o =>
        have hown : T.timing = .own := by
          by_contra hown
          cases hcount'.symm.trans (hT.budget.overrun?_count T.exact_of_timing hown hcount)
        exact .inr
          ⟨hown, o, { q with network := { q.network with budget := q.network.budget.count } },
            by rw [enter_run, hcount']⟩
  · intro ν' _ _ p₁ q₁ _ hrun habreast₁ hsame
    subst hsame
    have hentered : p₁.network = { p.network with budget := p.network.budget.count } := by
      rw [enter_run] at hrun
      cases hcount : p.network.budget.count.overrun? with
      | some o => simp [hcount] at hrun
      | none =>
        rw [hcount] at hrun
        rw [← (EStateM.Result.ok.inj hrun).2]
    refine (hbody p₁ q₁ hentered habreast₁).bind fun ν₂ _ _ p₂ q₂ _ _ habreast₂ _ ↦ ?_
    exact follows_leave p₂ q₂ habreast₂

theorem follows_visit {body body' : Engine Unit} (hbody : Follows T ν body body') :
    Follows T ν (visit body) (visit body') := fun _ _ habreast ↦
  followsAt_visit habreast fun p₁ q₁ _ ↦ hbody p₁ q₁

/-- **A visit that only concerns what is lost** is left again, so it does not change how deep visits
are nested. -/
theorem idle_visit {body : Engine Unit} (hinexact : ¬ T.exact) (hmeasured : Measured body)
    (hbody : Idle T ν body) : Idle T ν (visit body) := by
  intro p q habreast a p' hrun
  have hT := habreast.twins
  simp only [visit, Bind.bind, EStateM.bind, enter_run] at hrun
  cases hcount : p.network.budget.count.overrun? with
  | some o => simp [hcount] at hrun
  | none =>
    simp only [hcount] at hrun
    have habreast₁ : T.Abreast ν
        { p with network := { p.network with budget := p.network.budget.count } }
        q := ⟨{ hT with budget := hT.budget.count_left hinexact }, habreast.bare, habreast.reports⟩
    cases hrun₁ : body { p with network := { p.network with budget := p.network.budget.count } }
      with
    | error e s => simp [hrun₁] at hrun
    | ok u p₁ =>
      simp only [hrun₁] at hrun
      obtain ⟨-, rfl⟩ := EStateM.Result.ok.inj hrun
      obtain ⟨ν', hν, habreast₂, -⟩ := (hbody _ q habreast₁ u p₁ hrun₁).of_pure
      have hdepth : p₁.network.budget.depth = p.network.budget.depth + 1 := by
        have hend := hmeasured.run { p with
          network := { p.network with budget := p.network.budget.count } }
        rw [hrun₁] at hend
        exact hend.2.depth
      have hT₂ := habreast₂.twins
      have hbudget : p₁.network.budget.leave.Relaxes T.exact T.timing q.network.budget := by
        refine hT₂.budget.counted ?_ hT₂.budget.visits fun he ↦ absurd he hinexact
        have hbefore : q.network.budget.depth ≤ p.network.budget.depth := hT.budget.depth
        change q.network.budget.depth ≤ p₁.network.budget.depth - 1
        omega
      exact .inl
        ⟨(), q, rfl, ν', hν,
          ⟨{ hT₂ with budget := hbudget }, habreast₂.bare, habreast₂.reports⟩, trivial⟩

end Engine

/-! ### Changes

A change resets the budget, is carried out, and is answered. Between changes it does not matter how
far the budgets were used (`Comparison.AtRest`). -/

variable {α β : Type} {n m : Nat} {T : Comparison n m} {ν : Naming} {net net' : Network}
  {x : Engine α} {y : Engine β} {R : Naming → α → β → Prop}

/-- The networks are twins between changes, when it does not matter how far the budgets were used,
unless everything is the same. -/
structure Comparison.AtRest (T : Comparison n m) (ν : Naming) (net net' : Network) : Prop
    extends T.Twins ν { net with budget := net.budget.reset }
      { net' with budget := net'.budget.reset } where
  spent : T.exact → net'.budget.depth = net.budget.depth ∧ net'.budget.visits = net.budget.visits
  timed : T.timing.Agrees net.budget net'.budget

theorem Comparison.Twins.atRest (hT : T.Twins ν net net') : T.AtRest ν net net' :=
  { hT with budget := hT.budget.reset, spent := hT.budget.same, timed := hT.budget.time }

/-- What came of a change of a network and of one of its twin: if the first one succeeds, so does
the second, with a related answer and the same reports. If the second one is timed by a clock of its
own, it may be broken off instead. -/
def Outcome.Tracks (T : Comparison n m) (ν : Naming) (o : Outcome α) (o' : Outcome β)
    (R : α → β → Prop) : Prop :=
  ∀ a, o.result = .ok a →
    (∃ b ν', o'.result = .ok b ∧ ν.Grows ν' ∧ T.AtRest ν' o.network o'.network ∧
      (T.exact → o'.reports.map Report.bare = o.reports.map Report.bare) ∧
      (T.events → o'.reports = o.reports) ∧ R a b) ∨
    T.timing = .own ∧ ∃ overrun, o'.result = .error (.tooComplex overrun)

theorem Network.carryOut_of_run {a : α} {p : Progress}
    (hrun : x ⟨{ net with budget := net.budget.reset }, []⟩ = .ok a p) :
    net.carryOut x = ⟨.ok a, p.network, p.reports.reverse⟩ := by
  rw [Network.carryOut, EStateM.run, hrun]

theorem Network.run_of_carryOut {a : α} (ha : (net.carryOut x).result = .ok a) :
    ∃ p, x ⟨{ net with budget := net.budget.reset }, []⟩ = .ok a p := by
  rw [Network.carryOut, EStateM.run] at ha
  cases hrun : x ⟨{ net with budget := net.budget.reset }, []⟩ with
  | error e s => cases e <;> simp [hrun] at ha
  | ok c p =>
    rw [hrun] at ha
    exact ⟨p, by rw [Except.ok.inj ha]⟩

/-- **A change is tracked if its computation is**, which starts from where the networks are. -/
theorem Network.tracksAt_carryOut {R : α → β → Prop} (hT : T.AtRest ν net net')
    (hx : ∀ p q, p.network = { net with budget := net.budget.reset } → T.Abreast ν p q →
      Engine.TracksAt T ν x y (fun _ ↦ R) p q) :
    Outcome.Tracks T ν (net.carryOut x) (net'.carryOut y) R := by
  have habreast : T.Abreast ν ⟨{ net with budget := net.budget.reset }, []⟩
      ⟨{ net' with budget := net'.budget.reset }, []⟩ := ⟨hT.toTwins, fun _ ↦ rfl, fun _ ↦ rfl⟩
  intro a ha
  obtain ⟨p, hrun⟩ := Network.run_of_carryOut ha
  obtain ⟨b, q, hrun', ν', hν, hend, hR⟩ | ⟨hown, overrun, q, hrun'⟩ := hx _ _ rfl habreast a p hrun
  · rw [Network.carryOut_of_run hrun, Network.carryOut_of_run hrun']
    refine .inl ⟨b, ν', rfl, hν, hend.twins.atRest, fun he ↦ ?_, fun he ↦ ?_, hR⟩
    · rw [List.map_reverse, List.map_reverse, hend.bare he]
    · rw [hend.reports he]
  · exact .inr ⟨hown, overrun, by rw [Network.carryOut, EStateM.run, hrun']⟩

/-- A change is tracked if its computation is, from all twin networks. -/
theorem Network.tracks_carryOut {R : α → β → Prop} (hT : T.AtRest ν net net')
    (hx : Engine.Tracks T ν x y fun _ ↦ R) :
    Outcome.Tracks T ν (net.carryOut x) (net'.carryOut y) R :=
  Network.tracksAt_carryOut hT fun p q _ ↦ hx p q

/-- **A change that only concerns what is lost leaves a twin.** -/
theorem Network.idle_carryOut {a : α} (hinexact : ¬ T.exact) (hT : T.AtRest ν net net')
    (hx : Engine.Idle T ν x) (ha : (net.carryOut x).result = .ok a) :
    ∃ ν', ν.Grows ν' ∧ T.AtRest ν' (net.carryOut x).network net' := by
  have habreast : T.Abreast ν ⟨{ net with budget := net.budget.reset }, []⟩
      ⟨{ net' with budget := net'.budget.reset }, []⟩ := ⟨hT.toTwins, fun _ ↦ rfl, fun _ ↦ rfl⟩
  obtain ⟨p, hrun⟩ := Network.run_of_carryOut ha
  obtain ⟨ν', hν, hend, -⟩ := (hx _ _ habreast a p hrun).of_pure
  rw [Network.carryOut_of_run hrun]
  exact ⟨ν', hν, { hend.twins with
    budget := hend.twins.budget.again fun htiming ↦ hinexact (T.exact_of_timing htiming)
    spent := fun he ↦ absurd he hinexact
    timed := hT.timed.left fun htiming ↦ hinexact (T.exact_of_timing htiming) }⟩

namespace Outcome.Tracks

variable {o : Outcome α} {o' : Outcome β} {R : α → β → Prop}

/-- A refused change need not be tracked. -/
theorem refused {e : NetworkError} : Outcome.Tracks T ν (.refused net e : Outcome α) o' R := by
  rintro a ⟨⟩

/-- Nothing was done in either network. -/
theorem done {a : α} {b : β} (hT : T.AtRest ν net net') (hR : R a b) :
    Outcome.Tracks T ν (.done net a) (.done net' b) R := by
  rintro _ ⟨⟩
  exact .inl ⟨b, ν, rfl, .refl ν, hT, fun _ ↦ rfl, fun _ ↦ rfl, hR⟩

/-- A change of the answers keeps outcomes related. -/
theorem map {γ δ : Type} {R' : γ → δ → Prop} {u : α → γ} {v : β → δ} (h : Outcome.Tracks T ν o o' R)
    (hR : ∀ a b, R a b → R' (u a) (v b)) : Outcome.Tracks T ν (o.map u) (o'.map v) R' := by
  intro c hc
  cases ho : o.result with
  | error e => simp [Outcome.map, ho, Except.map] at hc
  | ok a =>
    obtain ⟨b, ν', hb, hν, hrest, hbare, hreports, hab⟩ | ⟨hown, overrun, he⟩ := h a ho
    · have hc : u a = c := by simpa [Outcome.map, ho, Except.map] using hc
      exact .inl ⟨v b, ν', by simp [Outcome.map, hb, Except.map], hν, hrest, hbare, hreports,
        hc ▸ hR a b hab⟩
    · exact .inr ⟨hown, overrun, by simp [Outcome.map, he, Except.map]⟩

end Outcome.Tracks

end HeaderFlow
