import HeaderFlow.Proofs.Faults
import HeaderFlow.Proofs.Probe
import Mathlib.Order.Nat

/-!
# What a probe says and what it counts

**A probe says what has become of its count.** What there is to say of a change is determined by the
verdicts before and after it and by whether the count went up or down (`Probe.turn`), and that is
what the probe says of every flow it is told about (`Probe.turns_of_update`). This holds of any
probe, also of one with wrong notes.

**A count is never short** if it is at least the number of flows that are noted as deciding
(`Probe.Solvent`). A flow is given up only if it was noted as deciding, so there is one to give up,
and then there is one less of each. Nothing is asked of the flows for that, nor of the order in
which the probe hears of them.
-/

namespace HeaderFlow

open Checked

namespace Probe

variable {p q : Probe} {flow : Handle} {c : Chain} {r : Bool} {t : Transition}
  {o : Option Transition} {change : FlowChange}

/-! ### Transitions -/

/-- **What there is to say** when a probe turns from `p` to `q`. -/
def turn (p q : Probe) : Option Transition :=
  if q.deciding = p.deciding then none
  else match p.holds, q.holds with
    | false, true => some .falseToTrue
    | true, false => some .trueToFalse
    | true, true => some (if p.deciding < q.deciding then .moreTrue else .lessTrue)
    | false, false => some (if p.deciding < q.deciding then .moreFalse else .lessFalse)

/-- Where the count stays, there is nothing to say. -/
theorem turn_of_eq (h : q.deciding = p.deciding) : p.turn q = none := if_pos h

/-- The probe turns from `p` to `q` and says so. -/
def Turns (p q : Probe) (o : Option Transition) : Prop := q.mode = p.mode ∧ p.turn q = o

/-- One flow more decides. -/
theorem turns_countUp (p : Probe) : p.Turns p.countUp.1 (some p.countUp.2) := by
  refine ⟨rfl, ?_⟩
  obtain ⟨mode, state, filter, test, results, deciding⟩ := p
  cases mode <;> cases deciding <;> simp [turn, countUp, holds]

/-- One flow less decides. -/
theorem turns_of_countDown (h : p.countDown = .ok (q, t)) : p.Turns q (some t) := by
  obtain ⟨mode, state, filter, test, results, deciding⟩ := p
  rw [countDown] at h
  split at h
  · cases h
  · rename_i hpos
    obtain ⟨rfl, rfl⟩ := Prod.mk.inj (Except.ok.inj h)
    refine ⟨rfl, ?_⟩
    obtain ⟨deciding, rfl⟩ := Nat.exists_eq_succ_of_ne_zero hpos
    cases mode <;> cases deciding <;> simp [turn, holds]

/-- A flow is forgotten. -/
theorem turns_of_forget (h : p.forget flow = .ok (q, o)) : p.Turns q o := by
  rw [forget] at h
  split at h
  · obtain ⟨rfl, rfl⟩ := Prod.mk.inj (Except.ok.inj h)
    exact ⟨rfl, turn_of_eq rfl⟩
  · dsimp only at h
    split at h
    · obtain ⟨⟨q', t⟩, hdown, heq⟩ := map_eq_ok.1 h
      obtain ⟨rfl, rfl⟩ := Prod.mk.inj heq
      exact turns_of_countDown
        (p := { p with results := p.results.filter fun e ↦ e.1 ≠ flow }) hdown
    · obtain ⟨rfl, rfl⟩ := Prod.mk.inj (Except.ok.inj h)
      exact ⟨rfl, turn_of_eq rfl⟩

/-- A flow is asked about. -/
theorem turns_of_examine (h : p.examine flow c = .ok (q, o)) : p.Turns q o := by
  obtain ⟨passes, -, h⟩ := bind_eq_ok.1 h
  split at h
  · obtain ⟨rfl, rfl⟩ := Prod.mk.inj (Except.ok.inj h)
    exact ⟨rfl, turn_of_eq rfl⟩
  · obtain ⟨r, -, h⟩ := bind_eq_ok.1 h
    -- a note changes neither the count nor the verdict
    have hup : p.Turns (p.record flow r).countUp.1 (some (p.record flow r).countUp.2) :=
      turns_countUp (p.record flow r)
    split at h
    · split at h
      · obtain ⟨rfl, rfl⟩ := Prod.mk.inj (Except.ok.inj h)
        exact hup
      · obtain ⟨rfl, rfl⟩ := Prod.mk.inj (Except.ok.inj h)
        exact ⟨rfl, turn_of_eq rfl⟩
    · split at h
      · obtain ⟨rfl, rfl⟩ := Prod.mk.inj (Except.ok.inj h)
        exact ⟨rfl, turn_of_eq rfl⟩
      · split at h
        · obtain ⟨rfl, rfl⟩ := Prod.mk.inj (Except.ok.inj h)
          exact hup
        · obtain ⟨⟨q', t⟩, hdown, heq⟩ := bind_eq_ok.1 h
          obtain ⟨rfl, rfl⟩ := Prod.mk.inj (Except.ok.inj heq)
          exact turns_of_countDown (p := p.record flow r) hdown

/-- **A probe says what has become of its count**, whatever it is told. -/
theorem turns_of_update (h : p.update flow change = .ok (q, o)) : p.Turns q o := by
  cases change with
  | deleted => exact turns_of_forget h
  | added c =>
    rw [update] at h
    split at h
    · exact turns_of_examine h
    · obtain ⟨rfl, rfl⟩ := Prod.mk.inj (Except.ok.inj h)
      exact ⟨rfl, turn_of_eq rfl⟩
  | modified c =>
    rw [update] at h
    split at h
    · exact turns_of_examine h
    · exact turns_of_forget h

/-- The transition tells how verdict and count changed from `p` to `q`. -/
structure Announces (p q : Probe) (o : Option Transition) : Prop where
  falseToTrue : o = some .falseToTrue ↔ p.holds = false ∧ q.holds = true
  trueToFalse : o = some .trueToFalse ↔ p.holds = true ∧ q.holds = false
  moreTrue : o = some .moreTrue ↔ p.deciding < q.deciding ∧ p.holds = true ∧ q.holds = true
  moreFalse : o = some .moreFalse ↔ p.deciding < q.deciding ∧ p.holds = false ∧ q.holds = false
  lessTrue : o = some .lessTrue ↔ q.deciding < p.deciding ∧ p.holds = true ∧ q.holds = true
  lessFalse : o = some .lessFalse ↔ q.deciding < p.deciding ∧ p.holds = false ∧ q.holds = false
  silent : o = none ↔ q.deciding = p.deciding

/-- The verdict of a probe rests on its count. -/
theorem holds_congr (hmode : q.mode = p.mode) (hdeciding : q.deciding = p.deciding) :
    q.holds = p.holds := by
  rw [holds, holds, hmode, hdeciding]

/-- What a probe says when it turns can be read either way. -/
theorem Turns.announces (h : p.Turns q o) : p.Announces q o := by
  obtain ⟨hmode, rfl⟩ := h
  have hsame : q.deciding = p.deciding → q.holds = p.holds := holds_congr hmode
  rw [turn]
  rcases lt_trichotomy p.deciding q.deciding with hlt | heq | hgt
  · rw [if_neg hlt.ne']
    cases hp : p.holds <;> cases hq : q.holds <;> constructor <;>
      simp [hp, hq, hlt, hlt.not_gt, hlt.ne']
  · have hholds := hsame heq.symm
    rw [if_pos heq.symm]
    cases hp : p.holds <;> constructor <;> simp [hp, hholds, heq]
  · rw [if_neg hgt.ne]
    cases hp : p.holds <;> cases hq : q.holds <;> constructor <;>
      simp [hp, hq, hgt, hgt.not_gt, hgt.ne]

/-! ### Counts that are not short -/

/-- No fewer flows are counted than are noted as deciding. -/
def Solvent (p : Probe) : Prop := p.noted ≤ p.deciding

/-- The computation is not short of flows to give up, and the probe that it answers is solvent. -/
structure Pays {α : Type} (x : Checked (Probe × α)) : Prop where
  faults : Faults Fault.NotCount x
  solvent : ∀ q a, x = .ok (q, a) → q.Solvent

section

variable {α β : Type} {x : Checked (Probe × α)} {a : α}

theorem pays_ok (hq : q.Solvent) : Pays (.ok (q, a)) :=
  ⟨faults_ok, fun _ _ h ↦ (Prod.mk.inj (Except.ok.inj h)).1 ▸ hq⟩

/-- One computation is not short, and the next one is not short on its probe. -/
theorem Pays.bind {k : Probe × α → Checked (Probe × β)} (hx : Pays x)
    (hk : ∀ q a, q.Solvent → Pays (k (q, a))) : Pays (x >>= k) := by
  cases x with
  | error f => exact ⟨faults_error (hx.faults f rfl), fun _ _ h ↦ nomatch h⟩
  | ok a => exact hk a.1 a.2 (hx.solvent _ _ rfl)

/-- A condition that is checked first. -/
theorem pays_check_bind {k : Bool → Checked (Probe × α)} {condition : Condition}
    (hk : ∀ b, Pays (k b)) : Pays (condition.check c >>= k) := by
  have hfaults := (Condition.faults_check c condition).notCount
  cases hcheck : condition.check c with
  | error f => exact ⟨faults_error (hfaults f hcheck), fun _ _ h ↦ nomatch h⟩
  | ok b => exact hk b

end

/-- **A flow can be given up if one more is counted than is noted.** -/
theorem pays_countDown (hp : p.noted < p.deciding) : Pays p.countDown := by
  rw [countDown, if_neg (by omega)]
  exact pays_ok (show p.noted ≤ p.deciding - 1 by omega)

/-- **Forgetting a flow is paid for.** -/
theorem Solvent.forget (hp : p.Solvent) (flow : Handle) : Pays (p.forget flow) := by
  rw [Probe.forget]
  split
  · exact pays_ok hp
  · rename_i r hr
    dsimp only
    split
    · rename_i hdecides
      have hdown : Pays { p with results := p.results.filter fun e ↦ e.1 ≠ flow }.countDown :=
        pays_countDown ((notedBut_lt hr hdecides).trans_le hp)
      refine ⟨hdown.faults.map, fun q o h ↦ ?_⟩
      obtain ⟨⟨q', t⟩, hq, heq⟩ := map_eq_ok.1 h
      exact (Prod.mk.inj heq).1 ▸ hdown.solvent _ _ hq
    · exact pays_ok ((notedBut_le p flow).trans hp)

/-- What is noted, when one flow is noted anew. -/
theorem noted_record_le (p : Probe) (flow : Handle) (r : Bool) :
    (p.record flow r).noted ≤ p.noted + if p.decides r then 1 else 0 := by
  rw [noted_record]
  exact Nat.add_le_add_right (notedBut_le p flow) _

/-- An answer that does not decide need not be paid for. -/
theorem Solvent.record (hp : p.Solvent) (hr : p.decides r = false) : (p.record flow r).Solvent := by
  refine (noted_record_le p flow r).trans ?_
  rw [hr]
  exact hp

/-- A flow that comes to decide is counted. -/
theorem Solvent.countUp (hp : p.Solvent) (hr : p.decides r = true) :
    (p.record flow r).countUp.1.Solvent := by
  refine (noted_record_le p flow r).trans ?_
  rw [if_pos hr]
  exact Nat.succ_le_succ hp

/-- A flow that decided is noted no more, or is noted once again. -/
theorem noted_record_lt {before : Bool} (hp : p.Solvent) (hbefore : p.result? flow = some before)
    (hdecides : p.decides before = true) :
    (p.record flow r).noted < p.deciding + if p.decides r then 1 else 0 := by
  have hlt := notedBut_lt hbefore hdecides
  rw [noted_record]
  unfold Solvent at hp
  omega

/-- **Asking about a flow is paid for.** -/
theorem Solvent.examine (hp : p.Solvent) (flow : Handle) (c : Chain) : Pays (p.examine flow c) := by
  refine pays_check_bind fun passes ↦ ?_
  split
  · exact pays_ok hp
  refine pays_check_bind fun r ↦ ?_
  split
  · split
    · exact pays_ok (hp.countUp ‹_›)
    · exact pays_ok (hp.record (Bool.eq_false_iff.2 ‹_›))
  · rename_i before hbefore
    split
    · rename_i hsame
      subst hsame
      refine pays_ok ?_
      cases hdecides : p.decides before with
      | false => exact hp.record hdecides
      | true =>
        have hlt := noted_record_lt (r := before) hp hbefore hdecides
        rw [if_pos hdecides] at hlt
        exact Nat.le_of_lt_succ hlt
    · rename_i hne
      split
      · exact pays_ok (hp.countUp ‹_›)
      · rename_i hdecides
        have hbefore' : p.decides before = true := by
          rw [decides_of_ne hne, Bool.eq_false_iff.2 hdecides]
          rfl
        have hlt := noted_record_lt (r := r) hp hbefore hbefore'
        rw [if_neg hdecides] at hlt
        exact (pays_countDown (p := p.record flow r) hlt).bind fun q t hq ↦ pays_ok hq

/-- **A solvent probe is never short of flows to give up, and stays solvent**, whatever it is
told. -/
theorem Solvent.update (hp : p.Solvent) (flow : Handle) (change : FlowChange) :
    Pays (p.update flow change) := by
  cases change with
  | deleted => exact hp.forget flow
  | added c =>
    rw [Probe.update]
    split
    · exact hp.examine flow c
    · exact pays_ok hp
  | modified c =>
    rw [Probe.update]
    split
    · exact hp.examine flow c
    · exact hp.forget flow

/-- Surveying flows is paid for. -/
theorem Solvent.survey (hp : p.Solvent) (flows : List (Handle × Chain)) :
    Pays (p.survey flows) := by
  induction flows generalizing p with
  | nil => exact pays_ok hp
  | cons e flows ih =>
    obtain ⟨flow, c⟩ := e
    rw [Probe.survey]
    refine pays_check_bind fun passes ↦ ?_
    split
    · exact ih hp
    refine pays_check_bind fun r ↦ ?_
    dsimp only
    split
    · rename_i hdecides
      have hmore : (p.record flow r).countUp.1.Solvent := hp.countUp hdecides
      exact (ih hmore).bind fun q ts hq ↦ pays_ok hq
    · rename_i hdecides
      exact ih (hp.record (Bool.eq_false_iff.2 hdecides))

/-- A probe can always be started. -/
theorem Solvent.start (hp : p.Solvent) (flows : List (Handle × Chain)) : Pays (p.start flows) :=
  (Solvent.survey (p := { p with state := .started }) hp flows).bind fun _ _ hq ↦ pays_ok hq

theorem solvent_stop (p : Probe) : p.stop.Solvent := Nat.le_refl 0

theorem solvent_new (mode : ProbeMode) (filter test : Condition) : (new mode filter test).Solvent :=
  Nat.le_refl 0

/-- A solvent probe stays so when it is widened. -/
theorem Solvent.enlarge (hp : p.Solvent) (bytes : Nat) : (p.enlarge bytes).Solvent := hp

end Probe

end HeaderFlow
