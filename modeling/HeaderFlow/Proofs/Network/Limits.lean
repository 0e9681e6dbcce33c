import HeaderFlow.Proofs.Network.Aftermath
import HeaderFlow.Proofs.Network.Identical
import HeaderFlow.Proofs.Network.TwinRuns

/-!
# Limits break off and do nothing else

A budget can only halt a change. **What is not halted does not depend on the limits**: a run in
which all changes succeed goes the same way within wider limits, and ends in the same network. The
two runs are twins in which everything stands for itself, and the room that wider limits leave is
never used.

Time is a limit like the others, except that no limit of time is wider than another one: the second
run sees another clock. So there the wider limits have none, and the first run can be timed by any
clock.

## What else is known of such a run

`Network.after_relaxed` says that answers, reports and networks are the same, but for the settings
and the budget themselves. It also says that the limit of visits is not passed and that no visit is
left open, at the end of each change (`balanced_after`): the depth is back at zero. This is not a
consequence of the comparison; it is kept by each change that succeeds, from the budget that it
starts with.
-/

namespace HeaderFlow

variable {net : Network} {s s' : Settings} {clock clock' : Clock} {bytes : Nat} {ms : List Mutation}

/-- The settings are the same, except that limits are wider, and that there is no limit of time. -/
structure Settings.Relaxes (s s' : Settings) : Prop extends s.Alike s' where
  maxDepth : s.maxDepth ≤ s'.maxDepth
  maxVisits : s'.maxVisits = 0 ∨ s.maxVisits ≠ 0 ∧ s.maxVisits ≤ s'.maxVisits
  untimed : s'.timeoutMs = 0

/-- The settings without a limit of time. -/
def Settings.untimed (s : Settings) : Settings := { s with timeoutMs := 0 }

/-- Everything stands for itself, and nothing is lost. -/
def Comparison.same (n : Nat) : Comparison n n := (Casting.same n).entire True .untimed

/-- Where everything stands for itself the naming is literal. -/
theorem Comparison.literal_same (n : Nat) : (Comparison.same n).Literal :=
  ⟨trivial, fun _ _ h ↦ h.symm, fun _ _ h ↦ h.symm, fun _ _ h ↦ h.symm, fun _ _ h ↦ h.symm⟩

/-- Answers that are compared literally are the same. -/
theorem Comparison.eq_of_replies_same {n : Nat} {reply reply' : Reply}
    (h : (Comparison.same n).Replies reply reply') : reply' = reply := by
  cases h with
  | done => rfl
  | node h => rw [h trivial]
  | length h => rw [h trivial]
  | anomalies found => rfl

/-- At every length everything stands for itself. -/
def Scale.same : Scale id where
  rung := Comparison.same
  recasts _ _ := ⟨.rfl, rfl, id, rfl, rfl, rfl, rfl, rfl,
    fun _ _ h ↦ congrArg _ h, fun _ _ h ↦ congrArg _ h, fun _ _ h ↦ congrArg _ h, fun _ _ h ↦
      congrArg _ h⟩
  max_eq := Scale.max_id
  events _ _ := rfl

/-- Every change goes with itself. -/
theorem Scale.goes_same (n : Nat) (mu : Mutation) : Scale.same.Goes n mu mu := by
  have hpattern : ∀ o : Option Pattern, Option.Rel (Comparison.same n).Fits o o := by
    rintro (_ | p)
    · exact .none
    · exact .some fun h ↦ ⟨rfl, h⟩
  cases mu with
  | addTable id ports => exact .change (.addTable id ports)
  | removeTable id => exact .change (.removeTable id)
  | addRule r =>
    exact .change (.addRule ⟨rfl, rfl, rfl, rfl, fun h ↦ ⟨rfl, h⟩, hpattern _, hpattern _⟩)
  | removeRule id => exact .change (.removeRule id)
  | addLink l => exact .change (.addLink l)
  | removeLink l => exact .change (.removeLink l)
  | addSource space ports => exact .change (.addSource ports fun h ↦ ⟨rfl, h⟩)
  | addSourcePattern p ports => exact .change (.addSourcePattern ports fun h ↦ ⟨rfl, h⟩)
  | removeSource id => exact .change (.removeSource id)
  | addProbe r =>
    exact .change (.addProbe ⟨rfl, Condition.alike_refl _, Condition.alike_refl _, rfl, hpattern _⟩)
  | removeProbe id => exact .change (.removeProbe id)
  | restartProbe id => exact .change (.restartProbe id)
  | expand k => exact .expand k
  | audit table => exact .change (.audit table)

namespace Network

/-- Where all changes succeed, everything stays in order. -/
theorem orderly_after (hO : Orderly s net) (hok : net.Completes ms) : Orderly s (net.after ms) := by
  induction ms generalizing net with
  | nil => exact hO
  | cons mu ms ih =>
    obtain ⟨⟨reply, hreply⟩, hrest⟩ := completes_cons.1 hok
    exact ih (settles_apply hO mu (hreply ▸ faultless_ok)).1 hrest

/-- **No visit is left open**, and the limit of visits is not passed. -/
theorem balanced_after (hok : net.Completes ms) (hnet : net.budget.Balanced) :
    (net.after ms).budget.Balanced := by
  induction ms generalizing net with
  | nil => exact hnet
  | cons mu ms ih =>
    obtain ⟨⟨reply, hreply⟩, hrest⟩ := completes_cons.1 hok
    exact ih hrest ((atomic_apply net mu).balanced reply hreply hnet)

/-- A run in which all changes succeed goes the same way within wider limits. -/
theorem run_relaxed (clock' : Clock) (hs : s.Relaxes s') (hok : (new bytes s clock).Completes ms) :
    (new bytes s' clock').Completes ms ∧
    (new bytes s' clock').answers ms = (new bytes s clock).answers ms ∧
    (new bytes s' clock').told ms = (new bytes s clock).told ms ∧
    ∃ budget, (new bytes s' clock').after ms =
      { (new bytes s clock).after ms with settings := s', budget := budget } := by
  have hvisits : s'.maxVisits.toNat = 0 ∨
      0 < s.maxVisits.toNat ∧ s.maxVisits.toNat ≤ s'.maxVisits.toNat :=
    hs.maxVisits.imp (fun h ↦ by rw [h]; rfl) fun ⟨hne, hle⟩ ↦
      ⟨Nat.pos_of_ne_zero fun hzero ↦ hne (UInt64.toNat_inj.1 hzero), UInt64.le_iff_toNat_le.1 hle⟩
  have hlimited : (new bytes s' clock').Limited s' := (new_orderly bytes s' clock').toLimited
  have hT := (Comparison.same bytes).atRest_new clock clock' hs.toAlike
    (UInt64.le_iff_toNat_le.1 hs.maxDepth) hvisits (hlimited.untimed hs.untimed) rfl
  have hgoes : Scale.same.GoesAlong ms ms := List.forall₂_same.2 fun mu _ n ↦ Scale.goes_same n mu
  obtain ⟨n, ν, hT, hanswers, -, htold⟩ := Scale.same.run (fun _ ↦ by rintro ⟨⟩)
    (fun _ _ ↦ ⟨fun hno ↦ hno, rfl, Nat.le_refl _⟩) (fun _ _ _ ↦ trivial) (fun _ _ ↦ trivial)
    (fun _ _ ↦ trivial) (fun _ ↦ trivial) hT hgoes hok
  have hsame : (new bytes s' clock').answers ms = (new bytes s clock).answers ms := by
    have heq : List.Forall₂ Eq ((new bytes s clock).answers ms)
        ((new bytes s' clock').answers ms) := by
      refine hanswers.imp ?_
      rintro answer answer' ⟨n, reply, reply', rfl, rfl, hreply⟩
      rw [Comparison.eq_of_replies_same hreply]
    rw [List.forall₂_eq_eq_eq] at heq
    exact heq.symm
  have hok' : (new bytes s' clock').Completes ms := fun answer ha ↦ hok answer (hsame ▸ ha)
  refine ⟨hok', hsame, htold fun _ ↦ trivial, ((new bytes s' clock').after ms).budget, ?_⟩
  have hO' : Orderly s' ((new bytes s' clock').after ms) :=
    orderly_after (new_orderly bytes s' clock') hok'
  have hlast : ((new bytes s' clock').after ms).lastEvent =
      ((new bytes s clock).after ms).lastEvent :=
    hT.events trivial
  have hbytes : ((new bytes s clock).after ms).bytes = n := hT.bytes
  refine (hT.eq (Comparison.literal_same n)).trans ?_
  rw [hO'.settings, hlast, id_eq, ← hbytes]

/-- **Limits break off and do nothing else.** -/
theorem after_relaxed (hs : s.Relaxes s') (hok : (new bytes s clock).Completes ms) :
    (new bytes s' clock').Completes ms ∧
    (new bytes s' clock').answers ms = (new bytes s clock).answers ms ∧
    (new bytes s' clock').told ms = (new bytes s clock).told ms ∧
    (∃ budget, (new bytes s' clock').after ms =
      { (new bytes s clock).after ms with settings := s', budget := budget }) ∧
    ∀ ms₁ ms₂, ms = ms₁ ++ ms₂ → ((new bytes s clock).after ms₁).budget.depth = 0 ∧
      (s.maxVisits ≠ 0 → ((new bytes s clock).after ms₁).budget.visits ≤ s.maxVisits.toNat) := by
  obtain ⟨hok', hanswers, htold, hnetwork⟩ := run_relaxed clock' hs hok
  refine ⟨hok', hanswers, htold, hnetwork, ?_⟩
  rintro ms₁ ms₂ rfl
  have hok₁ := (completes_append.1 hok).1
  obtain ⟨hdepth, hobserved⟩ := balanced_after hok₁ ⟨rfl, .inr (Nat.zero_le _)⟩
  have hlimit := (orderly_after (new_orderly bytes s clock) hok₁).maxVisits
  refine ⟨hdepth, fun hne ↦ hlimit ▸ hobserved.resolve_left fun hzero ↦ hne ?_⟩
  exact UInt64.toNat_inj.1 (hlimit.symm.trans hzero)

/-- A source whose headers reach a rule. -/
def relay : List Mutation :=
  [.addTable 1 [11, 12], .addLink ⟨1, 11⟩,
    .addRule { table := 1, index := 1, inPorts := [], outPorts := [12], accepts := .allWild 1 },
    .addSourcePattern (.allWild 1) [1]]

/-- Settings with some limits and no others. -/
def limited (maxDepth maxVisits : UInt64) : Settings :=
  { Settings.default with maxDepth := maxDepth, maxVisits := maxVisits, timeoutMs := 0 }

/-- Two visits, one within the other, are just enough, so more do not matter. -/
theorem after_relaxed_relay : ¬ (new 1 (limited 1 2)).Completes relay ∧
    ¬ (new 1 (limited 2 1)).Completes relay ∧ (limited 2 2).Relaxes (limited 5 0) ∧
    (new 1 (limited 2 2)).Completes relay ∧ ∃ budget, (new 1 (limited 5 0)).after relay =
      { (new 1 (limited 2 2)).after relay with settings := limited 5 0, budget := budget } := by
  have hrelaxes : (limited 2 2).Relaxes (limited 5 0) :=
    { loopDetection := rfl, checkShadow := rfl, checkBlackholes := rfl, anomalies := rfl
      maxDepth := by decide, maxVisits := .inl rfl, untimed := rfl }
  have hcompletes : (new 1 (limited 2 2)).Completes relay := by decide +kernel
  obtain ⟨-, -, -, hsame, -⟩ := after_relaxed hrelaxes hcompletes
  exact ⟨by decide +kernel, by decide +kernel, hrelaxes, hcompletes, hsame⟩

end Network

end HeaderFlow
