import HeaderFlow.Proofs.Network.Twins

/-!
# Probes of twin networks

A probe and its counterpart are told of the same changes, except for those of lost flows, of which
only the first one hears. **They note the same answers for the flows that both know.** How many
flows they count can differ if something is lost, and so can what they report; the second one can
still take back whatever it counted.

What can go wrong in the second run is that a probe is to take back more than it has counted. So the
relation between the probes says that the second one has counted at least the deciding flows that it
has noted (`Comparison.Probes`), which is all that is needed to follow the first one. If nothing is
lost, counts and transitions are the same, and so are reports.

Each function of a probe has one lemma for a flow that is kept and one for a lost flow. **The
counterpart of a lost flow does not exist, so a probe that notes it stays in step by doing nothing**
(`forget_lost`, `examine_lost`).
-/

namespace HeaderFlow

open Checked (tracks_ok)

namespace Comparison

variable {n m : Nat} {T : Comparison n m} {ν : Naming} {p p' q q' : Probe} {h h' : Handle}
  {r : Bool} {c c' : Chain}

/-- The same happened to a flow and to its counterpart. -/
inductive Changes (T : Comparison n m) : FlowChange → FlowChange → Prop
  | added {c c' : Chain} : c.Alike T.space c' → Changes T (.added c) (.added c')
  | modified {c c' : Chain} : c.Alike T.space c' → Changes T (.modified c) (.modified c')
  | deleted : Changes T .deleted .deleted

namespace Probes

/-! ### Notes -/

/-- An answer decides for both probes or for neither. -/
theorem decides_eq (hp : T.Probes ν p p') (r : Bool) : p'.decides r = p.decides r := by
  rw [Probe.decides, Probe.decides, hp.mode]

/-- A flow and its counterpart were noted with the same answer. -/
theorem result?_eq (hp : T.Probes ν p p') (hinj : ν.flow.Injective) (hh : ν.flow.Kept h h') :
    p'.result? h' = p.result? h := by
  rw [Probe.result?, Probe.result?]
  have hresults := hp.results
  revert hresults
  generalize p.results = l
  generalize p'.results = l'
  intro hresults
  induction hresults with
  | nil => rfl
  | @keep e e' l l' he _ ih =>
    obtain ⟨g, r⟩ := e
    obtain ⟨g', r'⟩ := e'
    obtain ⟨hg, rfl⟩ := he
    rw [List.lookup_cons, List.lookup_cons, hinj.beq_eq hh hg, ih]
  | @skip e l l' he _ ih =>
    obtain ⟨g, r⟩ := e
    have hne : h ≠ g := by
      rintro rfl
      exact hh.not_lost he
    rw [List.lookup_cons, beq_false_of_ne hne, ih]

/-- The notes without a flow and its counterpart. -/
theorem others (hp : T.Probes ν p p') (hinj : ν.flow.Injective) (hh : ν.flow.Kept h h') :
    Culled (fun e e' ↦ ν.flow.Kept e.1 e'.1 ∧ e'.2 = e.2) (fun e ↦ ν.flow.Lost () e.1)
      (p.results.filter fun e ↦ e.1 ≠ h) (p'.results.filter fun e ↦ e.1 ≠ h') :=
  hp.results.filter fun _ _ he ↦ hinj.decide_ne he.1 hh

/-- The notes without a lost flow. -/
theorem others_lost (hp : T.Probes ν p p') (hh : ν.flow.Lost () h) :
    Culled (fun e e' ↦ ν.flow.Kept e.1 e'.1 ∧ e'.2 = e.2) (fun e ↦ ν.flow.Lost () e.1)
      (p.results.filter fun e ↦ e.1 ≠ h) p'.results :=
  hp.results.filter_left fun _ _ he ↦ decide_eq_true fun heq ↦ he.1.not_lost (heq ▸ hh)

/-- **The answer for a flow and for its counterpart is noted.** -/
theorem record (hp : T.Probes ν p p') (hinj : ν.flow.Injective) (hh : ν.flow.Kept h h')
    (hcounted : p'.decides r = false ∨ p'.result? h' = some r) :
    T.Probes ν (p.record h r) (p'.record h' r) :=
  { hp with
    results := .keep ⟨hh, rfl⟩ (hp.others hinj hh)
    counted := by
      have hnoted := Probe.noted_record p' h' r
      have hbut := Probe.notedBut_le p' h'
      have hle := hp.counted
      show (p'.record h' r).noted ≤ p'.deciding
      rcases hcounted with hr | hr
      · rw [if_neg (by simp [hr])] at hnoted
        omega
      · split at hnoted
        · have := Probe.notedBut_lt hr ‹_›
          omega
        · omega }

/-- The answer is noted, and the flow counts from now on. -/
theorem record_up (hp : T.Probes ν p p') (hinj : ν.flow.Injective) (hh : ν.flow.Kept h h') :
    T.Probes ν { p.record h r with deciding := p.deciding + 1 }
      { p'.record h' r with deciding := p'.deciding + 1 } :=
  { hp with
    results := .keep ⟨hh, rfl⟩ (hp.others hinj hh)
    counted := by
      have hnoted := Probe.noted_record p' h' r
      have hbut := Probe.notedBut_le p' h'
      have hle := hp.counted
      show (p'.record h' r).noted ≤ p'.deciding + 1
      split at hnoted <;> omega
    deciding := fun he ↦ congrArg (· + 1) (hp.deciding he) }

/-- The transition is the same if nothing is lost. -/
theorem countUp_transition (hmode : q'.mode = q.mode)
    (hdeciding : T.exact → q'.deciding = q.deciding) (he : T.exact) :
    q'.countUp.2 = q.countUp.2 := by
  simp only [Probe.countUp, hmode, hdeciding he]

/-- One flow less decides. -/
theorem countDown {a b : Probe} (hmode : b.mode = a.mode)
    (hdeciding : T.exact → b.deciding = a.deciding) (hpos : 0 < b.deciding) :
    Checked.Tracks a.countDown b.countDown fun o o' ↦
      o.1 = { a with deciding := a.deciding - 1 } ∧
      o'.1 = { b with deciding := b.deciding - 1 } ∧ (T.exact → o'.2 = o.2) := by
  rw [Probe.countDown, Probe.countDown, if_neg (Nat.pos_iff_ne_zero.1 hpos)]
  split
  · rintro o ⟨⟩
  · refine tracks_ok ⟨rfl, rfl, fun he ↦ ?_⟩
    simp only [hmode, hdeciding he]

/-! ### Changes of a flow that both know -/

/-- **Both probes forget a flow.** -/
theorem forget (hp : T.Probes ν p p') (hinj : ν.flow.Injective) (hh : ν.flow.Kept h h') :
    Checked.Tracks (p.forget h) (p'.forget h') fun o o' ↦
      T.Probes ν o.1 o'.1 ∧ (T.exact → o'.2 = o.2) := by
  have hbut := Probe.notedBut_le p' h'
  have hle := hp.counted
  rw [Probe.forget, Probe.forget, hp.result?_eq hinj hh]
  cases hr : p.result? h with
  | none => exact tracks_ok ⟨hp, fun _ ↦ rfl⟩
  | some r =>
    simp only [hp.decides_eq]
    split
    · have hlt := Probe.notedBut_lt ((hp.result?_eq hinj hh).trans hr)
        ((hp.decides_eq r).trans ‹_›)
      refine Checked.Tracks.map (countDown (T := T) (a := { p with results := _ })
        (b := { p' with results := _ }) hp.mode hp.deciding (show 0 < p'.deciding by omega)) ?_
      rintro ⟨o, t⟩ ⟨o', t'⟩ ⟨rfl, rfl, ht⟩
      refine ⟨{ hp with
        results := hp.others hinj hh
        counted := show p'.notedBut h' ≤ p'.deciding - 1 by omega
        deciding := fun he ↦ congrArg (· - 1) (hp.deciding he) }, fun he ↦ congrArg some (ht he)⟩
    · exact tracks_ok ⟨{ hp with
        results := hp.others hinj hh
        counted := Nat.le_trans hbut hle }, fun _ ↦ rfl⟩

/-- **Both probes look at a flow.** -/
theorem examine (hp : T.Probes ν p p') (hinj : ν.flow.Injective) (hh : ν.flow.Kept h h')
    (hc : c.Alike T.space c') : Checked.Tracks (p.examine h c) (p'.examine h' c') fun o o' ↦
      T.Probes ν o.1 o'.1 ∧ (T.exact → o'.2 = o.2) := by
  refine (T.check hc hp.filter).bind ?_
  rintro passes _ rfl
  split
  · exact tracks_ok ⟨hp, fun _ ↦ rfl⟩
  refine (T.check hc hp.test).bind ?_
  rintro r _ rfl
  have hresult := hp.result?_eq hinj hh
  have hup : T.Probes ν (p.record h r).countUp.1 (p'.record h' r).countUp.1 ∧
      (T.exact → some (p'.record h' r).countUp.2 = some (p.record h r).countUp.2) :=
    ⟨hp.record_up hinj hh, fun he ↦ congrArg some (countUp_transition hp.mode hp.deciding he)⟩
  simp only [hresult, hp.decides_eq]
  cases hbefore : p.result? h with
  | none =>
    dsimp only
    split
    · exact tracks_ok hup
    · rename_i hr
      rw [Bool.not_eq_true] at hr
      exact tracks_ok ⟨hp.record hinj hh (.inl ((hp.decides_eq r).trans hr)), fun _ ↦ rfl⟩
  | some before =>
    dsimp only
    split
    · subst before
      exact tracks_ok ⟨hp.record hinj hh (.inr (hresult.trans hbefore)), fun _ ↦ rfl⟩
    rename_i hne
    split
    · exact tracks_ok hup
    rename_i hr
    rw [Bool.not_eq_true] at hr
    -- The flow was noted as deciding and does not decide any more, so the second count is not zero.
    have hlt := Probe.notedBut_lt (hresult.trans hbefore)
      (by rw [hp.decides_eq, Probe.decides_of_ne hne, hr]; rfl)
    have hle := hp.counted
    have hnoted := Probe.noted_record p' h' r
    rw [if_neg (by simp [hp.decides_eq, hr])] at hnoted
    refine (countDown (T := T) (a := p.record h r) (b := p'.record h' r) hp.mode hp.deciding
      (show 0 < p'.deciding by omega)).bind ?_
    rintro ⟨o, t⟩ ⟨o', t'⟩ ⟨rfl, rfl, ht⟩
    refine tracks_ok ⟨{ hp with
      results := .keep ⟨hh, rfl⟩ (hp.others hinj hh)
      counted := show (p'.record h' r).noted ≤ p'.deciding - 1 by omega
      deciding := fun he ↦ congrArg (· - 1) (hp.deciding he) }, fun he ↦ congrArg some (ht he)⟩

/-- **Both probes are told of the same change.** -/
theorem update {d d' : FlowChange} (hp : T.Probes ν p p') (hinj : ν.flow.Injective)
    (hh : ν.flow.Kept h h') (hd : T.Changes d d') :
    Checked.Tracks (p.update h d) (p'.update h' d') fun o o' ↦
      T.Probes ν o.1 o'.1 ∧ (T.exact → o'.2 = o.2) := by
  cases hd with
  | deleted => exact hp.forget hinj hh
  | added hc =>
    simp only [Probe.update, T.hasHeaders_eq hc]
    split
    · exact hp.examine hinj hh hc
    · exact tracks_ok ⟨hp, fun _ ↦ rfl⟩
  | modified hc =>
    simp only [Probe.update, T.hasHeaders_eq hc]
    split
    · exact hp.examine hinj hh hc
    · exact hp.forget hinj hh

/-! ### Changes of a lost flow -/

/-- Only the first probe notes something, about a lost flow. -/
theorem left (hp : T.Probes ν p p') (hinexact : ¬ T.exact) {l : List (Handle × Bool)} {k : Nat}
    (hl : Culled (fun e e' ↦ ν.flow.Kept e.1 e'.1 ∧ e'.2 = e.2) (fun e ↦ ν.flow.Lost () e.1)
      l p'.results) : T.Probes ν { p with results := l, deciding := k } p' :=
  { hp with
    results := hl
    deciding := fun he ↦ absurd he hinexact }

/-- Only the first probe forgets a flow. -/
theorem forget_lost {o : Probe × Option Transition} (hp : T.Probes ν p p') (hinexact : ¬ T.exact)
    (hh : ν.flow.Lost () h) (ho : p.forget h = .ok o) : T.Probes ν o.1 p' := by
  rw [Probe.forget] at ho
  split at ho
  · obtain rfl := Except.ok.inj ho
    exact hp
  dsimp only at ho
  split at ho
  · obtain ⟨⟨q, t⟩, hq, rfl⟩ := Checked.map_eq_ok.1 ho
    rw [Probe.countDown] at hq
    split at hq
    · cases hq
    · obtain ⟨rfl, -⟩ := Prod.mk.inj (Except.ok.inj hq)
      exact hp.left hinexact (hp.others_lost hh)
  · obtain rfl := Except.ok.inj ho
    exact hp.left hinexact (hp.others_lost hh)

/-- Only the first probe looks at a flow. -/
theorem examine_lost {o : Probe × Option Transition} (hp : T.Probes ν p p') (hinexact : ¬ T.exact)
    (hh : ν.flow.Lost () h) (ho : p.examine h c = .ok o) : T.Probes ν o.1 p' := by
  have hleft : ∀ r k, T.Probes ν { p.record h r with deciding := k } p' := fun r k ↦
    hp.left hinexact (.skip hh (hp.others_lost hh))
  obtain ⟨passes, -, ho⟩ := Checked.bind_eq_ok.1 ho
  split at ho
  · obtain rfl := Except.ok.inj ho
    exact hp
  obtain ⟨r, -, ho⟩ := Checked.bind_eq_ok.1 ho
  dsimp only at ho
  split at ho
  · split at ho <;> obtain rfl := Except.ok.inj ho <;> exact hleft r _
  split at ho
  · obtain rfl := Except.ok.inj ho
    exact hleft r _
  split at ho
  · obtain rfl := Except.ok.inj ho
    exact hleft r _
  obtain ⟨⟨q, t⟩, hq, ho⟩ := Checked.bind_eq_ok.1 ho
  rw [Probe.countDown] at hq
  split at hq
  · cases hq
  obtain ⟨rfl, -⟩ := Prod.mk.inj (Except.ok.inj hq)
  obtain rfl := Except.ok.inj ho
  exact hleft r _

/-- **Only the first probe is told of a lost flow.** -/
theorem update_lost {d : FlowChange} {o : Probe × Option Transition} (hp : T.Probes ν p p')
    (hinexact : ¬ T.exact) (hh : ν.flow.Lost () h) (ho : p.update h d = .ok o) :
    T.Probes ν o.1 p' := by
  cases d with
  | deleted => exact hp.forget_lost hinexact hh ho
  | added c =>
    rw [Probe.update] at ho
    split at ho
    · exact hp.examine_lost hinexact hh ho
    · obtain rfl := Except.ok.inj ho
      exact hp
  | modified c =>
    rw [Probe.update] at ho
    split at ho
    · exact hp.examine_lost hinexact hh ho
    · exact hp.forget_lost hinexact hh ho

/-! ### Starting and stopping -/

/-- The flows that both probes look at when they start, with the ways that they came by. -/
abbrev Surveyed (T : Comparison n m) (ν : Naming) :
    List (Handle × Chain) → List (Handle × Chain) → Prop :=
  Culled (fun e e' ↦ ν.flow.Kept e.1 e'.1 ∧ e.2.Alike T.space e'.2) fun e ↦ ν.flow.Lost () e.1

/-- Both probes look at the flows that are there. -/
theorem survey {l l' : List (Handle × Chain)} (hp : T.Probes ν p p') (hinj : ν.flow.Injective)
    (hsame : T.exact → ∀ g g', ν.flow.Kept g g' → g' = g)
    (hinexact : ∀ g, ν.flow.Lost () g → ¬ T.exact) (hl : Surveyed T ν l l') :
    Checked.Tracks (p.survey l) (p'.survey l') fun o o' ↦
      T.Probes ν o.1 o'.1 ∧ (T.exact → o'.2 = o.2) := by
  induction hl generalizing p p' with
  | nil => exact tracks_ok ⟨hp, fun _ ↦ rfl⟩
  | @keep e e' l l' he _ ih =>
    obtain ⟨g, c⟩ := e
    obtain ⟨g', c'⟩ := e'
    obtain ⟨hg, hc⟩ := he
    refine (T.check hc hp.filter).bind ?_
    rintro passes _ rfl
    split
    · exact ih hp
    refine (T.check hc hp.test).bind ?_
    rintro r _ rfl
    have hdecides : (p'.record g' r).decides r = (p.record g r).decides r := hp.decides_eq r
    dsimp only
    rw [hdecides]
    split
    · refine (ih (hp.record_up hinj hg)).bind fun o o' ho ↦ tracks_ok ⟨ho.1, fun hexact ↦ ?_⟩
      have hmode : o'.1.mode = o.1.mode := ho.1.mode
      simp only [hmode, ho.2 hexact, hsame hexact g g' hg]
    · rename_i hr
      rw [Bool.not_eq_true] at hr
      exact ih (hp.record hinj hg (.inl ((hp.decides_eq r).trans hr)))
  | @skip e l l' he _ ih =>
    obtain ⟨g, c⟩ := e
    have hno := hinexact g he
    have hleft : ∀ r k, T.Probes ν { p.record g r with deciding := k } p' := fun r k ↦
      hp.left hno (.skip he (hp.others_lost he))
    refine Checked.Tracks.bind_left fun passes _ ↦ ?_
    split
    · exact ih hp
    refine Checked.Tracks.bind_left fun r _ ↦ ?_
    dsimp only
    split
    · intro o ho
      obtain ⟨o₁, ho₁, ho⟩ := Checked.bind_eq_ok.1 ho
      obtain ⟨o', ho', hend, -⟩ := ih (hleft r _) o₁ ho₁
      obtain rfl := Except.ok.inj ho
      exact ⟨o', ho', hend, fun hexact ↦ absurd hexact hno⟩
    · exact ih (hleft r _)

/-- **Both probes start.** -/
theorem start {l l' : List (Handle × Chain)} (hp : T.Probes ν p p') (hinj : ν.flow.Injective)
    (hsame : T.exact → ∀ g g', ν.flow.Kept g g' → g' = g)
    (hinexact : ∀ g, ν.flow.Lost () g → ¬ T.exact) (hl : Surveyed T ν l l') :
    Checked.Tracks (p.start l) (p'.start l') fun o o' ↦
      T.Probes ν o.1 o'.1 ∧ (T.exact → o'.2 = o.2) := by
  have hstarted : T.Probes ν { p with state := .started } { p' with state := .started } :=
    { hp with state := rfl }
  refine (hstarted.survey hinj hsame hinexact hl).bind ?_
  rintro ⟨q, ts⟩ ⟨q', ts'⟩ ⟨hq, hts⟩
  refine tracks_ok ⟨{ hq with state := rfl }, fun he ↦ ?_⟩
  have hmode : q'.mode = q.mode := hq.mode
  have hdeciding : q'.deciding = q.deciding := hq.deciding he
  have hreports : ts' = ts := hts he
  simp only [hmode, hdeciding, hreports]

/-- Both probes stop. -/
theorem stop (hp : T.Probes ν p p') : T.Probes ν p.stop p'.stop :=
  { hp with
    state := rfl
    results := .nil
    counted := Nat.zero_le _
    deciding := fun _ ↦ rfl }

end Probes

end Comparison

end HeaderFlow
