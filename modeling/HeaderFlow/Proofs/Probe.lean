import HeaderFlow.Probe.Basic
import HeaderFlow.Proofs.Checked
import Mathlib.Data.List.Nodup

/-!
# What a probe knows of its flows

A probe hears of flows as they come, change and go, and notes what the test answered for those that
pass the filter. `Probe.Follows` compares its notes with the flows that are there: every flow that
passes the filter is noted, **with its present answer**, and no flow is noted that is gone. The
number of deciding flows is that of the notes (`Probe.Counted`).

The notes may be too many, however. A flow that was noted and does not pass the filter any more is
left as it was (`Probe.Stale`), so **the verdict errs on one side only**: an existential probe may
hold for too long, and a universal one may fail to hold. Without stale flows it is what a probe
would say that is started now (`Probe.Watches.holds_eq_of_start`).
-/

namespace HeaderFlow

open Checked

/-- The way of the flow after the change, if it is there and has headers. -/
def FlowChange.present : FlowChange → Option Chain
  | .deleted => none
  | .added c | .modified c => if Probe.hasHeaders c then some c else none

namespace Probe

variable {p q : Probe} {flow h : Handle} {c : Chain} {r : Bool} {t : Option Transition}
  {w : Handle → Option Chain}

/-! ### Notes

The count is kept beside the notes and not computed from them. `Counted` says that it is right, and
the lemmas on `notedBut` how it changes when one answer is replaced. -/

/-- The number of flows that were noted with an answer that decides. -/
def noted (p : Probe) : Nat := p.results.countP fun e ↦ p.decides e.2

/-- The same without the given flow. -/
def notedBut (p : Probe) (flow : Handle) : Nat :=
  (p.results.filter fun e ↦ e.1 ≠ flow).countP fun e ↦ p.decides e.2

/-- Leaving out a flow leaves no more. -/
theorem notedBut_le (p : Probe) (flow : Handle) : p.notedBut flow ≤ p.noted :=
  List.filter_sublist.countP_le

/-- A flow that was noted as deciding is one of those noted. -/
theorem notedBut_lt (hr : p.result? flow = some r) (hdecides : p.decides r = true) :
    p.notedBut flow < p.noted := by
  obtain ⟨as, bs, hresults, -⟩ := List.lookup_eq_some_iff.1 hr
  have hhead : p.noted = (as.countP fun e ↦ p.decides e.2) + 1 +
      bs.countP fun e ↦ p.decides e.2 := by
    rw [noted, hresults, List.countP_append, List.countP_cons, if_pos hdecides]
    omega
  have htail : p.notedBut flow ≤ (as.countP fun e ↦ p.decides e.2) +
      bs.countP fun e ↦ p.decides e.2 := by
    rw [notedBut, hresults, List.filter_append, List.filter_cons, if_neg (by simp),
      List.countP_append]
    exact Nat.add_le_add List.filter_sublist.countP_le List.filter_sublist.countP_le
  omega

/-- How many decide, when an answer is noted. -/
theorem noted_record (p : Probe) (flow : Handle) (r : Bool) :
    (p.record flow r).noted = p.notedBut flow + if p.decides r then 1 else 0 :=
  List.countP_cons

/-- Of two different answers one decides. -/
theorem decides_of_ne {before : Bool} (hne : before ≠ r) : p.decides before = !p.decides r := by
  cases hmode : p.mode <;> cases before <;> cases r <;> simp_all [decides]

/-- What a probe asks, and of which flows. -/
def question (p : Probe) : ProbeMode × Condition × Condition := (p.mode, p.filter, p.test)

/-- What is not listed is not found. -/
theorem lookup_eq_none {α : Type} {l : List (Handle × α)} (hh : h ∉ l.map Prod.fst) :
    l.lookup h = none :=
  List.lookup_eq_none_iff.2 fun e he ↦ bne_iff_ne.2 fun hkey ↦
    hh (List.mem_map.2 ⟨e, he, hkey.symm⟩)

/-- What is found when a flow was left out. -/
theorem lookup_filter (l : List (Handle × Bool)) (flow h : Handle) :
    (l.filter fun e ↦ e.1 ≠ flow).lookup h = if h = flow then none else l.lookup h := by
  induction l with
  | nil => simp
  | cons e l ih =>
    obtain ⟨k, r⟩ := e
    by_cases hk : k = flow
    · rw [List.filter_cons_of_neg (by simpa using hk), ih, List.lookup_cons]
      by_cases hh : h = k
      · simp [hh, hk]
      · simp [beq_false_of_ne hh]
    · rw [List.filter_cons_of_pos (by simpa using hk), List.lookup_cons, List.lookup_cons, ih]
      by_cases hh : h = k
      · simp [hh, hk]
      · simp [beq_false_of_ne hh]

/-- What is noted, when an answer is noted. -/
theorem result?_record (p : Probe) (flow h : Handle) (r : Bool) :
    (p.record flow r).result? h = if h = flow then some r else p.result? h := by
  rw [result?, record, List.lookup_cons]
  by_cases hh : h = flow
  · rw [hh, beq_self_eq_true, if_pos rfl]
  · rw [beq_false_of_ne hh, lookup_filter, if_neg hh, if_neg hh]
    rfl

/-- Every flow is noted once, and those that decide are counted. -/
structure Counted (p : Probe) : Prop where
  once : (p.results.map Prod.fst).Nodup
  count : p.deciding = p.noted

/-- How many decide, with and without a flow. -/
theorem noted_eq (honce : (p.results.map Prod.fst).Nodup) (flow : Handle) :
    p.noted = p.notedBut flow + if (p.result? flow).any p.decides then 1 else 0 := by
  rw [noted, notedBut, result?]
  generalize p.results = l at honce
  induction l with
  | nil => rfl
  | cons e l ih =>
    obtain ⟨k, r⟩ := e
    obtain ⟨hk, honce⟩ := List.nodup_cons.1 honce
    have hrest := ih honce
    rw [List.countP_cons, List.lookup_cons]
    by_cases hkey : k = flow
    · subst hkey
      rw [lookup_eq_none hk] at hrest
      rw [List.filter_cons_of_neg (by simp), beq_self_eq_true, hrest]
      rfl
    · rw [List.filter_cons_of_pos (by simpa using hkey), List.countP_cons, hrest,
        beq_false_of_ne (Ne.symm hkey)]
      dsimp only
      omega

namespace Counted

/-- Forgetting a flow leaves the other notes, which are counted. -/
theorem forget_eq (hp : p.Counted) (hf : p.forget flow = .ok (q, t)) :
    q = { p with
      results := p.results.filter fun e ↦ e.1 ≠ flow
      deciding := p.notedBut flow } := by
  have hnoted := noted_eq hp.once flow
  rw [← hp.count] at hnoted
  rw [Probe.forget] at hf
  cases hr : p.result? flow with
  | none =>
    rw [hr] at hf hnoted
    obtain ⟨rfl, -⟩ := Prod.mk.inj (Except.ok.inj hf)
    have hself : p.results.filter (fun e ↦ e.1 ≠ flow) = p.results :=
      List.filter_eq_self.2 fun e he ↦
        decide_eq_true (bne_iff_ne.1 (List.lookup_eq_none_iff.1 hr e he)).symm
    rw [hself, ← show p.deciding = p.notedBut flow from hnoted]
  | some r =>
    rw [hr] at hf hnoted
    dsimp only at hf
    split at hf
    · rename_i hdecides
      obtain ⟨⟨q', t'⟩, hdown, heq⟩ := map_eq_ok.1 hf
      obtain ⟨rfl, -⟩ := Prod.mk.inj heq
      rw [Option.any_some, if_pos hdecides] at hnoted
      rw [countDown, if_neg (by dsimp only; omega)] at hdown
      obtain ⟨rfl, -⟩ := Prod.mk.inj (Except.ok.inj hdown)
      simp [hnoted]
    · rename_i hdecides
      obtain ⟨rfl, -⟩ := Prod.mk.inj (Except.ok.inj hf)
      rw [Option.any_some, if_neg hdecides] at hnoted
      simp [hnoted]

/-- **Asking about a flow** changes nothing if it does not pass the filter. If it does, its answer
is noted instead of an earlier one. -/
theorem examine_eq (hp : p.Counted) (he : p.examine flow c = .ok (q, t)) :
    p.filter.check c = .ok false ∧ q = p ∨ ∃ r, p.filter.check c = .ok true ∧
      p.test.check c = .ok r ∧
      q = { p.record flow r with deciding := (p.record flow r).noted } := by
  obtain ⟨passes, hfilter, he⟩ := bind_eq_ok.1 he
  cases passes with
  | false =>
    obtain ⟨rfl, -⟩ := Prod.mk.inj (Except.ok.inj he)
    exact .inl ⟨hfilter, rfl⟩
  | true =>
    obtain ⟨r, htest, he⟩ := bind_eq_ok.1 he
    refine .inr ⟨r, hfilter, htest, ?_⟩
    have hnoted := noted_eq hp.once flow
    rw [← hp.count] at hnoted
    rw [noted_record]
    -- Whatever branch is taken, it is enough that the new count is that of the notes.
    have hset : ∀ {d}, d = (p.notedBut flow + if p.decides r then 1 else 0) →
        { p.record flow r with deciding := d } = { p.record flow r with
          deciding := p.notedBut flow + if p.decides r then 1 else 0 } := fun hd ↦ by rw [hd]
    cases hbefore : p.result? flow with
    | none =>
      rw [hbefore] at he hnoted
      dsimp only at he
      split at he
      · obtain ⟨rfl, -⟩ := Prod.mk.inj (Except.ok.inj he)
        exact hset (by rw [if_pos ‹_›]; exact congrArg (· + 1) hnoted)
      · obtain ⟨rfl, -⟩ := Prod.mk.inj (Except.ok.inj he)
        exact hset (by rw [if_neg ‹_›]; exact hnoted)
    | some before =>
      rw [hbefore, Option.any_some] at hnoted
      rw [hbefore] at he
      dsimp only at he
      split at he
      · rename_i hsame
        obtain ⟨rfl, -⟩ := Prod.mk.inj (Except.ok.inj he)
        exact hset (hsame ▸ hnoted)
      -- The answer has changed, so one of the two decides and the other one does not.
      · rename_i hne
        rw [decides_of_ne hne] at hnoted
        split at he
        · rename_i hdecides
          obtain ⟨rfl, -⟩ := Prod.mk.inj (Except.ok.inj he)
          exact hset (by simp_all [record])
        · rename_i hdecides
          obtain ⟨⟨q', t'⟩, hdown, heq⟩ := bind_eq_ok.1 he
          obtain ⟨rfl, -⟩ := Prod.mk.inj (Except.ok.inj heq)
          rw [countDown] at hdown
          split at hdown
          · cases hdown
          · obtain ⟨rfl, -⟩ := Prod.mk.inj (Except.ok.inj hdown)
            exact hset (by simp_all [record])

/-- The notes without a flow. -/
theorem without (hp : p.Counted) (flow : Handle) : Counted { p with
    results := p.results.filter fun e ↦ e.1 ≠ flow
    deciding := p.notedBut flow } :=
  ⟨hp.once.sublist (List.filter_sublist.map _), rfl⟩

/-- The notes with an answer for a flow. -/
theorem with_record (hp : p.Counted) (flow : Handle) (r : Bool) :
    Counted { p.record flow r with deciding := (p.record flow r).noted } := by
  refine ⟨List.nodup_cons.2 ⟨fun hmem ↦ ?_, hp.once.sublist (List.filter_sublist.map _)⟩, rfl⟩
  obtain ⟨e, he, hkey⟩ := List.mem_map.1 hmem
  exact of_decide_eq_true (List.mem_filter.1 he).2 hkey

/-- **The probe counts a deciding flow if one is noted.** -/
theorem deciding_pos (hp : p.Counted) :
    0 < p.deciding ↔ ∃ h r, p.result? h = some r ∧ p.decides r = true := by
  rw [hp.count, noted, List.countP_pos_iff]
  constructor
  · rintro ⟨⟨h, r⟩, hmem, hdecides⟩
    refine ⟨h, r, ?_, hdecides⟩
    obtain ⟨as, bs, hresults⟩ := List.append_of_mem hmem
    refine List.lookup_eq_some_iff.2 ⟨as, bs, hresults, fun e he ↦ bne_iff_ne.2 fun hkey ↦ ?_⟩
    have honce := hp.once
    rw [hresults, List.map_append, List.map_cons] at honce
    exact (List.nodup_append.1 honce).2.2 e.1 (List.mem_map_of_mem he) h List.mem_cons_self
      hkey.symm
  · rintro ⟨h, r, hr, hdecides⟩
    obtain ⟨as, bs, hresults, -⟩ := List.lookup_eq_some_iff.1 hr
    exact ⟨(h, r), by simp [hresults], hdecides⟩

end Counted

/-! ### Following

To follow one flow more, a probe has to note the right answer about it and leave the other notes
(`Follows.heeds`). Forgetting and examining are instances of this. -/

/-- The notes of the probe compared with the ways of the flows that are there and have headers. -/
structure Follows (p : Probe) (w : Handle → Option Chain) : Prop extends p.Counted where
  /-- A flow that passes the filter is noted with its answer. -/
  passing : ∀ h c, w h = some c → p.filter.check c = .ok true →
    ∃ r, p.test.check c = .ok r ∧ p.result? h = some r
  /-- A flow that is noted is there. -/
  present : ∀ h r, p.result? h = some r → ∃ c, w h = some c

/-- The flow is noted, but does not pass the filter any more. -/
def Stale (p : Probe) (w : Handle → Option Chain) (h : Handle) : Prop :=
  ∃ r c, p.result? h = some r ∧ w h = some c ∧ p.filter.check c ≠ .ok true

/-- The way of the flow is `o` now, and the probe has turned from `p` to `q` to follow. -/
structure Heeds (p q : Probe) (w : Handle → Option Chain) (flow : Handle) (o : Option Chain) :
    Prop where
  question : q.question = p.question
  follows : q.Follows (Function.update w flow o)
  /-- A flow becomes stale only if it was noted and does not pass the filter any more. -/
  stale : ∀ h, q.Stale (Function.update w flow o) h →
    p.Stale w h ∨ h = flow ∧ p.result? flow ≠ none ∧ ∃ c, o = some c ∧ p.filter.check c ≠ .ok true

/-- What a probe that follows has to do to follow one flow more. -/
theorem Follows.heeds (hp : p.Follows w) (flow : Handle) (o : Option Chain) (hq : q.Counted)
    (hquestion : q.question = p.question) (hother : ∀ h, h ≠ flow → q.result? h = p.result? h)
    (hpassing : ∀ c, o = some c → p.filter.check c = .ok true →
      ∃ r, p.test.check c = .ok r ∧ q.result? flow = some r)
    (hpresent : ∀ r, q.result? flow = some r → ∃ c, o = some c)
    (hstale : ∀ r c, q.result? flow = some r → o = some c → p.filter.check c ≠ .ok true →
      p.result? flow ≠ none) : p.Heeds q w flow o := by
  obtain ⟨-, hask⟩ := Prod.mk.inj hquestion
  obtain ⟨hfilter, htest⟩ := Prod.mk.inj hask
  refine ⟨hquestion, ⟨hq, fun h c hc hpass ↦ ?_, fun h r hr ↦ ?_⟩, ?_⟩
  · rw [hfilter] at hpass
    rw [htest]
    by_cases hh : h = flow
    · subst hh
      rw [Function.update_self] at hc
      exact hpassing c hc hpass
    · rw [Function.update_of_ne hh] at hc
      rw [hother h hh]
      exact hp.passing h c hc hpass
  · by_cases hh : h = flow
    · subst hh
      rw [Function.update_self]
      exact hpresent r hr
    · rw [Function.update_of_ne hh]
      exact hp.present h r (hother h hh ▸ hr)
  · rintro h ⟨r, c, hr, hc, hfails⟩
    rw [hfilter] at hfails
    by_cases hh : h = flow
    · subst hh
      rw [Function.update_self] at hc
      exact .inr ⟨rfl, hstale r c hr hc hfails, c, hc, hfails⟩
    · rw [Function.update_of_ne hh] at hc
      exact .inl ⟨r, c, hother h hh ▸ hr, hc, hfails⟩

/-- A flow that is gone is forgotten. -/
theorem Follows.forget (hp : p.Follows w) (hf : p.forget flow = .ok (q, t)) :
    p.Heeds q w flow none := by
  obtain rfl := hp.forget_eq hf
  refine hp.heeds flow none (hp.without flow) rfl (fun h hh ↦ ?_) ?_ (fun r hr ↦ ?_) ?_
  · exact (lookup_filter p.results flow h).trans (if_neg hh)
  · rintro c ⟨⟩
  · have hself := (lookup_filter p.results flow flow).trans (if_pos rfl)
    exact absurd (hself.symm.trans hr) (by simp)
  · rintro r c - ⟨⟩

/-- **A flow that is asked about is noted with its answer if it passes the filter.** -/
theorem Follows.examine (hp : p.Follows w) (he : p.examine flow c = .ok (q, t)) :
    p.Heeds q w flow (some c) := by
  obtain ⟨hfails, rfl⟩ | ⟨r, hpass, htest, rfl⟩ := hp.examine_eq he
  · refine hp.heeds flow (some c) hp.toCounted rfl (fun _ _ ↦ rfl) ?_ (fun _ _ ↦ ⟨c, rfl⟩) ?_
    · rintro _ ⟨⟩ hpass
      exact absurd (hfails.symm.trans hpass) (by simp)
    · rintro r _ hr - -
      simp [hr]
  · have hself := (result?_record p flow flow r).trans (if_pos rfl)
    refine hp.heeds flow (some c) (hp.with_record flow r) rfl
      (fun h hh ↦ (result?_record p flow h r).trans (if_neg hh)) ?_ (fun _ _ ↦ ⟨c, rfl⟩) ?_
    · rintro _ ⟨⟩ -
      exact ⟨r, htest, hself⟩
    · rintro _ _ - ⟨⟩ hfails
      exact absurd hpass hfails

/-- **The probe follows a change of a flow**, where only a new flow may be said to have arrived. -/
theorem Follows.update {change : FlowChange} (hp : p.Follows w)
    (hu : p.update flow change = .ok (q, t)) (hnew : ∀ c, change = .added c → w flow = none) :
    p.Heeds q w flow change.present := by
  cases change with
  | deleted => exact hp.forget hu
  | modified c =>
    rw [Probe.update] at hu
    rw [FlowChange.present]
    split at hu
    · rw [if_pos ‹_›]
      exact hp.examine hu
    · rw [if_neg ‹_›]
      exact hp.forget hu
  | added c =>
    rw [Probe.update] at hu
    rw [FlowChange.present]
    split at hu
    · rw [if_pos ‹_›]
      exact hp.examine hu
    · rw [if_neg ‹_›]
      obtain ⟨rfl, -⟩ := Prod.mk.inj (Except.ok.inj hu)
      -- a flow that was not there was not noted either
      have hnone : p.result? flow = none := Option.eq_none_iff_forall_ne_some.2 fun r hr ↦ by
        obtain ⟨c, hc⟩ := hp.present flow r hr
        exact absurd ((hnew _ rfl).symm.trans hc) (by simp)
      refine hp.heeds flow none hp.toCounted rfl (fun _ _ ↦ rfl) ?_ (fun r hr ↦ ?_) ?_
      · rintro c ⟨⟩
      · exact absurd (hnone.symm.trans hr) (by simp)
      · rintro r c - ⟨⟩

/-! ### Starting

A probe that starts forgets everything and surveys the flows that are there. Surveying is told apart
from examining in the code because there are no old answers to compare with; with no notes it comes
to the same. -/

/-- **Surveying flows is asking about one after the other**, as long as none is noted yet. -/
theorem examine_of_survey {l : List (Handle × Chain)} {ts : List (Option Handle × Transition)}
    (hs : p.survey ((flow, c) :: l) = .ok (q, ts)) (hnone : p.result? flow = none) :
    ∃ mid t ts', p.examine flow c = .ok (mid, t) ∧ mid.survey l = .ok (q, ts') := by
  rw [survey] at hs
  obtain ⟨passes, hfilter, hs⟩ := bind_eq_ok.1 hs
  cases passes with
  | false => exact ⟨p, none, ts, by rw [Probe.examine, hfilter]; rfl, hs⟩
  | true =>
    obtain ⟨r, htest, hs⟩ := bind_eq_ok.1 hs
    have hexamine : p.examine flow c = if p.decides r
        then .ok ((p.record flow r).countUp.1, some (p.record flow r).countUp.2)
        else .ok (p.record flow r, none) := by
      simp [Probe.examine, hfilter, htest, hnone]
    dsimp only at hs
    split at hs
    · obtain ⟨⟨q', ts'⟩, hrest, heq⟩ := bind_eq_ok.1 hs
      obtain ⟨rfl, -⟩ := Prod.mk.inj (Except.ok.inj heq)
      exact ⟨_, _, ts', hexamine.trans (if_pos ‹_›), hrest⟩
    · exact ⟨p.record flow r, none, ts, hexamine.trans (if_neg ‹_›), hs⟩

/-- Flows that are there already become known, and none of them is stale. -/
theorem Follows.survey {l : List (Handle × Chain)} {ts : List (Option Handle × Transition)}
    (hp : p.Follows w) (hs : p.survey l = .ok (q, ts)) (hl : (l.map Prod.fst).Nodup)
    (hnew : ∀ e ∈ l, w e.1 = none) (hstale : ∀ h, ¬ p.Stale w h) :
    q.question = p.question ∧ q.Follows (fun h ↦ (l.lookup h).or (w h)) ∧
      ∀ h, ¬ q.Stale (fun h ↦ (l.lookup h).or (w h)) h := by
  induction l generalizing p w ts with
  | nil =>
    obtain ⟨rfl, -⟩ := Prod.mk.inj (Except.ok.inj hs)
    exact ⟨rfl, hp, hstale⟩
  | cons e l ih =>
    obtain ⟨flow, c⟩ := e
    obtain ⟨hfresh, hl⟩ := List.nodup_cons.1 hl
    have hflow : w flow = none := hnew _ List.mem_cons_self
    have hnone : p.result? flow = none := Option.eq_none_iff_forall_ne_some.2 fun r hr ↦ by
      obtain ⟨c, hc⟩ := hp.present flow r hr
      exact absurd (hflow.symm.trans hc) (by simp)
    obtain ⟨mid, t, ts', hexamine, hrest⟩ := examine_of_survey hs hnone
    have hmid := hp.examine hexamine
    have hview : (fun h ↦ (((flow, c) :: l).lookup h).or (w h)) =
        fun h ↦ (l.lookup h).or (Function.update w flow (some c) h) := by
      funext h
      rw [List.lookup_cons, Function.update_apply]
      by_cases hh : h = flow
      · rw [hh, beq_self_eq_true, if_pos rfl, lookup_eq_none hfresh]
        rfl
      · rw [beq_false_of_ne hh, if_neg hh]
    rw [hview, ← hmid.question]
    refine ih hmid.follows hrest hl (fun e he ↦ ?_) fun h hs ↦ ?_
    · have hne : e.1 ≠ flow := fun hkey ↦ hfresh (List.mem_map.2 ⟨e, he, hkey⟩)
      rw [Function.update_of_ne hne]
      exact hnew e (List.mem_cons_of_mem _ he)
    · rcases hmid.stale h hs with hs | ⟨-, hnoted, -⟩
      · exact hstale h hs
      · exact hnoted hnone

/-- **A probe that is started knows the flows that are there.** -/
theorem follows_start {l : List (Handle × Chain)} {ts : List (Option Handle × Transition)}
    (hs : p.start l = .ok (q, ts)) (hresults : p.results = []) (hdeciding : p.deciding = 0)
    (hl : (l.map Prod.fst).Nodup) :
    q.question = p.question ∧ q.Follows (l.lookup ·) ∧ ∀ h, ¬ q.Stale (l.lookup ·) h := by
  obtain ⟨⟨mid, ts'⟩, hsurvey, hs⟩ := bind_eq_ok.1 hs
  obtain ⟨rfl, -⟩ := Prod.mk.inj (Except.ok.inj hs)
  have hnone : ∀ h, p.result? h = none := fun h ↦ by rw [result?, hresults]; rfl
  have hp : Follows { p with state := .started } fun _ ↦ none := by
    refine ⟨⟨hresults ▸ List.nodup_nil, ?_⟩, fun h c hc ↦ ?_, fun h r hr ↦ ?_⟩
    · rw [noted, hdeciding, hresults]
      rfl
    · cases hc
    · exact absurd ((hnone h).symm.trans hr) (by simp)
  obtain ⟨hquestion, hfollows, hstale⟩ := hp.survey hsurvey hl (fun _ _ ↦ rfl) fun h hs ↦ by
    obtain ⟨r, c, hr, -⟩ := hs
    exact absurd ((hnone h).symm.trans hr) (by simp)
  simp only [Option.or_none] at hfollows hstale
  exact ⟨hquestion, ⟨⟨hfollows.once, hfollows.count⟩, hfollows.passing, hfollows.present⟩, hstale⟩

/-! ### Verdicts

What a probe says depends on the number of deciding flows only, whether it is to be none or more
than none. -/

/-- What the verdict should be. -/
def Fresh (p : Probe) (w : Handle → Option Chain) : Prop :=
  match p.mode with
  | .existential => ∃ h c, w h = some c ∧ p.filter.check c = .ok true ∧ p.test.check c = .ok true
  | .universal => ∀ h c, w h = some c → p.filter.check c = .ok true → p.test.check c = .ok true

/-- The right verdict depends on what is asked. -/
theorem fresh_congr (hquestion : q.question = p.question) : q.Fresh w ↔ p.Fresh w := by
  obtain ⟨hmode, hask⟩ := Prod.mk.inj hquestion
  obtain ⟨hfilter, htest⟩ := Prod.mk.inj hask
  rw [Fresh, Fresh, hmode, hfilter, htest]

/-- **An existential probe does not miss a flow.** -/
theorem Follows.holds_of_fresh (hp : p.Follows w) (hmode : p.mode = .existential)
    (hfresh : p.Fresh w) : p.holds = true := by
  rw [Fresh, hmode] at hfresh
  obtain ⟨h, c, hc, hpass, htest⟩ := hfresh
  obtain ⟨r, htest', hr⟩ := hp.passing h c hc hpass
  obtain rfl := Except.ok.inj (htest.symm.trans htest')
  simp only [holds, hmode, decide_eq_true_eq]
  exact hp.deciding_pos.2 ⟨h, true, hr, by simp [decides, hmode]⟩

/-- **A universal probe that holds has missed no flow.** -/
theorem Follows.fresh_of_holds (hp : p.Follows w) (hmode : p.mode = .universal)
    (hholds : p.holds = true) : p.Fresh w := by
  rw [Fresh, hmode]
  intro h c hc hpass
  obtain ⟨r, htest, hr⟩ := hp.passing h c hc hpass
  cases r with
  | true => exact htest
  | false =>
    have hpos := hp.deciding_pos.2 ⟨h, false, hr, by simp [decides, hmode]⟩
    simp only [holds, hmode, beq_iff_eq] at hholds
    omega

/-- **Without stale flows the verdict is right.** -/
theorem Follows.holds_iff_fresh (hp : p.Follows w) (hstale : ∀ h, ¬ p.Stale w h) :
    p.holds = true ↔ p.Fresh w := by
  -- what is noted now passes the filter, so it has the answer of the test
  have hanswer : ∀ h r, p.result? h = some r → ∃ c, w h = some c ∧
      p.filter.check c = .ok true ∧ p.test.check c = .ok r := by
    intro h r hr
    obtain ⟨c, hc⟩ := hp.present h r hr
    have hpass : p.filter.check c = .ok true := by
      by_contra hfails
      exact hstale h ⟨r, c, hr, hc, hfails⟩
    obtain ⟨r', htest, hr'⟩ := hp.passing h c hc hpass
    obtain rfl := Option.some.inj (hr.symm.trans hr')
    exact ⟨c, hc, hpass, htest⟩
  cases hmode : p.mode with
  | existential =>
    refine ⟨fun hholds ↦ ?_, hp.holds_of_fresh hmode⟩
    simp only [holds, hmode, decide_eq_true_eq] at hholds
    obtain ⟨h, r, hr, hdecides⟩ := hp.deciding_pos.1 hholds
    simp only [decides, hmode] at hdecides
    subst hdecides
    obtain ⟨c, hc, hpass, htest⟩ := hanswer h true hr
    rw [Fresh, hmode]
    exact ⟨h, c, hc, hpass, htest⟩
  | universal =>
    refine ⟨hp.fresh_of_holds hmode, fun hfresh ↦ ?_⟩
    rw [Fresh, hmode] at hfresh
    simp only [holds, hmode, beq_iff_eq]
    by_contra hne
    obtain ⟨h, r, hr, hdecides⟩ := hp.deciding_pos.1 (Nat.pos_of_ne_zero hne)
    simp only [decides, hmode, Bool.not_eq_true'] at hdecides
    subst hdecides
    obtain ⟨c, hc, hpass, htest⟩ := hanswer h false hr
    exact absurd ((hfresh h c hc hpass).symm.trans htest) (by simp)

/-! ### Runs -/

/-- A probe that was started and was told of every change since then, with the ways of the flows
that are there now. -/
inductive Watches : Probe → (Handle → Option Chain) → Prop
  | start {p q : Probe} {l : List (Handle × Chain)} {ts : List (Option Handle × Transition)} :
    p.results = [] → p.deciding = 0 → (l.map Prod.fst).Nodup → p.start l = .ok (q, ts) →
      Watches q (l.lookup ·)
  | update {p q : Probe} {w : Handle → Option Chain} {flow : Handle} {change : FlowChange}
    {t : Option Transition} :
    Watches p w → p.update flow change = .ok (q, t) → (∀ c, change = .added c → w flow = none) →
      Watches q (Function.update w flow change.present)

/-- **A probe that watches follows.** -/
theorem Watches.follows (hw : Watches p w) : p.Follows w := by
  induction hw with
  | start hresults hdeciding hl hs => exact (follows_start hs hresults hdeciding hl).2.1
  | update _ hu hnew ih => exact (ih.update hu hnew).follows

/-- **A probe says what it would say if it were started now**, unless there are stale flows. In any
case an existential probe holds if it would hold then, and a universal one would hold then if it
holds. -/
theorem Watches.holds_eq_of_start {l : List (Handle × Chain)}
    {ts : List (Option Handle × Transition)} (hw : Watches p w) (hl : (l.map Prod.fst).Nodup)
    (hlist : ∀ h, l.lookup h = w h) (hs : p.stop.start l = .ok (q, ts)) :
    ((∀ h, ¬ p.Stale w h) → q.holds = p.holds) ∧
      (p.mode = .existential → q.holds = true → p.holds = true) ∧
      (p.mode = .universal → p.holds = true → q.holds = true) := by
  obtain ⟨hquestion, hfollows, hnone⟩ := follows_start hs rfl rfl hl
  have hq : q.holds = true ↔ p.Fresh w := by
    rw [hfollows.holds_iff_fresh hnone, funext hlist]
    exact fresh_congr hquestion
  refine ⟨fun hstale ↦ ?_, fun hmode hholds ↦ ?_, fun hmode hholds ↦ ?_⟩
  · exact Bool.eq_iff_iff.2 (hq.trans (hw.follows.holds_iff_fresh hstale).symm)
  · exact hw.follows.holds_of_fresh hmode (hq.1 hholds)
  · exact hq.2 (hw.follows.fresh_of_holds hmode hholds)

/-- The headers of one byte that start with the bit. -/
def half (bit : Trit) : Space := .ofPattern ((Pattern.allWild 1).put 0 bit)

/-- An existential probe about headers that start with `1`, with its notes. -/
def watch (results : List (Handle × Bool)) (deciding : Nat) : Probe :=
  ⟨.existential, .running, .header (half .one), .header (half .one), results, deciding⟩

/-- **A stale flow can decide**: it was noted, and has lost all headers that the probe is about. -/
theorem holds_of_stale : ∃ p w, Watches p w ∧ p.holds = true ∧ ¬ p.Fresh w := by
  have hwide : (Condition.header (half .one)).check ⟨some (.ofPattern (.allWild 1)), []⟩ =
      .ok true := by decide +kernel
  have hnarrow : (Condition.header (half .one)).check ⟨some (half .zero), []⟩ = .ok false := by
    decide +kernel
  have hstart : (Probe.new .existential (.header (half .one)) (.header (half .one))).start [] =
      .ok (watch [] 0, [(none, .startedFalse)]) := rfl
  have hadded : (watch [] 0).update ⟨0, 0⟩ (.added ⟨some (.ofPattern (.allWild 1)), []⟩) =
      .ok (watch [(⟨0, 0⟩, true)] 1, some .falseToTrue) := by
    rw [Probe.update, if_pos (by decide), Probe.examine, watch, hwide]
    rfl
  have hmodified : (watch [(⟨0, 0⟩, true)] 1).update ⟨0, 0⟩ (.modified ⟨some (half .zero), []⟩) =
      .ok (watch [(⟨0, 0⟩, true)] 1, none) := by
    rw [Probe.update, if_pos (by decide), Probe.examine, watch, hnarrow]
    rfl
  have hstarted : Watches (watch [] 0) fun _ ↦ none := .start rfl rfl (by simp) hstart
  refine ⟨_, _, (hstarted.update hadded fun _ _ ↦ rfl).update hmodified (by rintro c ⟨⟩), rfl, ?_⟩
  rintro ⟨h, c, hc, hpass, -⟩
  rw [Function.update_apply, Function.update_apply] at hc
  split at hc
  · obtain rfl : _ = c := Option.some.inj hc
    exact absurd (hnarrow.symm.trans hpass) (by simp)
  · cases hc

end Probe

end HeaderFlow
