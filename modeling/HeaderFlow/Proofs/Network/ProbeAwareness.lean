import HeaderFlow.Proofs.Pairs
import HeaderFlow.Proofs.Network.ProbeNotes

/-!
# What probes have heard

What a probe has noted fits the network (`Network.Watched`), but it might have noted too little.
`Network.Minded` adds that **a running probe has heard of the flows at its node**: of each that has
headers it has asked the filter, and if the flow passes, the present answer of the test is noted.
Flows in `V` are left out of account, for the time between two steps.

The answer depends on the way of the flow, which is found by going up from flow to flow.
`Network.Travels` is that way as a relation. It asks of each flow on the way that its node lists it,
so a flow that is gone, or is still to come, is on the way of none.

## Four sets

`Minded S X U V` has four parameters, and each of them is empty in a network between two changes:

* `S` are the keys of probes that are asleep;
* `X` are flows that may have lost their headers without the probe having been told;
* `U` are flows of which no probe knows anything;
* `V` are flows of which a probe need not have heard.

The difference between `X` and `V` is one of direction. In the first a note is too many, in the
second one too few.

## What is heard may not be up to date

A probe is told of a flow when its headers change, and it need not be told if the flow stops passing
the filter. So to have heard is to have **asked** (`Probe.Hears`): where the filter refuses a flow,
nothing is said of what is noted of it.
-/

namespace HeaderFlow

open Engine Checked

variable {net net' : Network} {S S' : Set NodeKey} {X X' U U' V V' : Set Handle} {P : Handle → Prop}
  {h g : Handle} {f f' : Flow} {m n : Node} {p q : Probe} {key : NodeKey} {stop : Hop}
  {stops : List Hop} {t : Option Transition} {c : Chain} {fuel : Nat}

/-! ### The way of a flow -/

/-- The stop of a flow that came in at the node by the port. -/
def Node.hop (n : Node) (port : Port) : Hop := ⟨n.id, n.type, n.table?, port, n.inputLayer⟩

/-- What a node contributes to a way is part of its core. -/
theorem Node.hop_of_core (hcore : m.core = n.core) : m.hop = n.hop := by
  have hid : m.id = n.id := congrArg Core.id hcore
  have hlayer : m.inputLayer = n.inputLayer := congrArg Core.inputLayer hcore
  have hkind : m.role.kind = n.role.kind := congrArg Core.kind hcore
  funext port
  rw [hop, hop, hid, hlayer]
  cases hm : m.role <;> cases hn : n.role <;> simp_all [type, table?, rule?, Role.kind]

/-- The flow is on the list of its node, which makes this stop. -/
structure Network.Lodges (net : Network) (h : Handle) (f : Flow) (stop : Hop) : Prop where
  flow : net.flows.find? h = some f
  node : ∃ n ∈ net.nodes, n.key = f.node ∧ h ∈ n.flows ∧ n.hop f.port = stop

/-- The flow came by these stops from a flow that came from none. It is at the first of them, the
flow that it came from is at the second, and so on. -/
inductive Network.Travels (net : Network) : Handle → List Hop → Prop
  | root {h : Handle} {f : Flow} {stop : Hop} : net.Lodges h f stop → f.parent = none →
    Travels net h [stop]
  | step {h p : Handle} {f : Flow} {stop : Hop} {stops : List Hop} :
    net.Lodges h f stop → f.parent = some p → Travels net p stops → Travels net h (stop :: stops)

namespace Network.Travels

/-- A way has one stop more than there are flows above. -/
theorem line (ht : net.Travels h stops) : ∃ d, Line net.flows h d ∧ stops.length = d + 1 := by
  induction ht with
  | root hl hp => exact ⟨0, .top hl.flow fun p hp' ↦ absurd (hp.symm.trans hp') (by simp), rfl⟩
  | step hl hp _ ih =>
    obtain ⟨d, hd, hlen⟩ := ih
    exact ⟨d + 1, .step hl.flow hp hd, by rw [List.length_cons, hlen]⟩

/-- **The stops are what is found on the way up**, if there is fuel enough. -/
theorem hops_ancestry (ht : net.Travels h stops) (hnodup : (net.nodes.map Node.key).Nodup)
    (hfuel : stops.length ≤ fuel) :
    net.hops (Network.ancestry net.flows fuel (some h)) = .ok stops := by
  have hnode : ∀ {f : Flow} {n : Node}, n ∈ net.nodes → n.key = f.node →
      net.node f.node = .ok n := by
    intro f n hn hkey
    rw [Network.node, ← hkey, Network.nodeAt?_of_mem hnodup hn]
  -- by induction on the way, of which each stop takes one unit of the fuel
  induction ht generalizing fuel with
  | @root h f stop hl hp =>
    obtain ⟨fuel, rfl⟩ := Nat.exists_eq_add_of_le' hfuel
    obtain ⟨n, hn, hkey, -, rfl⟩ := hl.node
    have hnil : Network.ancestry net.flows fuel none = [] := by cases fuel <;> rfl
    simp [Network.ancestry, hl.flow, hp, hnil, Network.hops, hnode hn hkey, Node.hop]
  | @step h p f stop stops hl hp _ ih =>
    cases fuel with
    | zero => exact absurd hfuel (Nat.not_succ_le_zero _)
    | succ fuel =>
      obtain ⟨n, hn, hkey, -, rfl⟩ := hl.node
      have habove := ih (Nat.le_of_succ_le_succ hfuel)
      simp [Network.ancestry, hl.flow, hp, Network.hops, hnode hn hkey, habove, Node.hop]

/-- **A flow that came by the stops is asked about as such.** -/
theorem chainOf (ht : net.Travels h stops) (hnodup : (net.nodes.map Node.key).Nodup)
    (hf : net.flows.find? h = some f) : net.chainOf h = .ok ⟨f.processed, stops⟩ := by
  obtain ⟨d, hd, hlen⟩ := ht.line
  have hstops := ht.hops_ancestry hnodup (hlen.trans_le hd.lt_size)
  simp [Network.chainOf, Network.lineage, hstops, hf]

/-- **A way was there before**, if its flows were where they are now. -/
theorem back (ht : net'.Travels h stops) (hP : P h)
    (hup : ∀ g f p, P g → net'.flows.find? g = some f → f.parent = some p → P p)
    (hflows : ∀ g f', P g → net'.flows.find? g = some f' →
      ∃ f, net.flows.find? g = some f ∧ f'.way = f.way)
    (hnodes : ∀ m ∈ net'.nodes, ∀ g ∈ m.flows, P g →
      ∃ n ∈ net.nodes, n.key = m.key ∧ n.hop = m.hop ∧ g ∈ n.flows) :
    net.Travels h stops := by
  have hlodges : ∀ {g f' stop}, P g → net'.Lodges g f' stop →
      ∃ f, net.Lodges g f stop ∧ f'.parent = f.parent := by
    intro g f' stop hP hl
    obtain ⟨f, hf, hway⟩ := hflows g f' hP hl.flow
    obtain ⟨m, hm, hmkey, hg, hstop⟩ := hl.node
    obtain ⟨n, hn, hkey, hhop, hg'⟩ := hnodes m hm g hg hP
    refine ⟨f, ⟨hf, n, hn, hkey.trans (hmkey.trans (Flow.node_eq hway)), hg', ?_⟩,
      Flow.parent_eq hway⟩
    rw [hhop, ← Flow.port_eq hway, hstop]
  induction ht with
  | root hl hp =>
    obtain ⟨f, hl', hsame⟩ := hlodges hP hl
    exact .root hl' (hsame.symm.trans hp)
  | step hl hp _ ih =>
    obtain ⟨f, hl', hsame⟩ := hlodges hP hl
    exact .step hl' (hsame.symm.trans hp) (ih (hup _ _ _ hP hl.flow hp))

/-- The same where nothing is new. -/
theorem back_all (ht : net'.Travels h stops)
    (hflows : ∀ g f', net'.flows.find? g = some f' →
      ∃ f, net.flows.find? g = some f ∧ f'.way = f.way)
    (hnodes : ∀ m ∈ net'.nodes, ∃ n ∈ net.nodes, n.key = m.key ∧ n.hop = m.hop ∧
      m.flows ⊆ n.flows) :
    net.Travels h stops := by
  refine ht.back (P := fun _ ↦ True) trivial (fun _ _ _ _ _ _ ↦ trivial) (fun g f' _ ↦ hflows g f')
    fun m hm g hg _ ↦ ?_
  obtain ⟨n, hn, hkey, hhop, hsub⟩ := hnodes m hm
  exact ⟨n, hn, hkey, hhop, hsub hg⟩

/-- **A way is left alone by all that is quiet.** -/
theorem of_quiet (ht : net'.Travels h stops) (hq : Quiet net net')
    (hnodup : (net.nodes.map Node.key).Nodup) : net.Travels h stops := by
  refine ht.back_all (fun g f hf ↦ ⟨f, hq.flows ▸ hf, rfl⟩) fun m hm ↦ ?_
  have hmem : m.core ∈ net.layout.cores := hq.layout ▸ List.mem_map_of_mem hm
  obtain ⟨n, hn, hcore⟩ := List.mem_map.1 hmem
  have hkey : n.key = m.key := congrArg Core.key hcore
  have hflows : m.flows = n.flows := by
    have hlist : net'.roster m.key = m.flows :=
      tied_of_nodeAt? (nodeAt?_of_mem (hq.nodup hnodup) hm)
    have hlist' : net.roster n.key = n.flows := tied_of_nodeAt? (nodeAt?_of_mem hnodup hn)
    rw [← hlist, ← hlist', hq.roster, hkey]
  exact ⟨n, hn, hkey, Node.hop_of_core hcore, fun g hg ↦ hflows ▸ hg⟩

end Network.Travels

/-! ### Telling a probe -/

/-- The filter has an answer for the flow, and if the flow passes, the answer of the test is
noted. -/
def Probe.Hears (p : Probe) (h : Handle) (c : Chain) : Prop :=
  ∃ passes, p.filter.check c = .ok passes ∧
    (passes = true → ∃ r, p.test.check c = .ok r ∧ p.result? h = some r)

/-- The probe asks the same, and has noted the same of all flows but one. -/
structure Probe.SameBut (p q : Probe) (h : Handle) : Prop where
  question : q.question = p.question
  state : q.state = p.state
  result? : ∀ g, g ≠ h → q.result? g = p.result? g

namespace Probe

/-- A probe that asks the same and has noted the same has heard the same. -/
theorem Hears.congr (hears : p.Hears h c) (hquestion : q.question = p.question)
    (hresult : q.result? h = p.result? h) : q.Hears h c := by
  obtain ⟨-, hask⟩ := Prod.mk.inj hquestion
  obtain ⟨hfilter, htest⟩ := Prod.mk.inj hask
  rwa [Hears, hfilter, htest, hresult]

theorem SameBut.refl (p : Probe) (h : Handle) : p.SameBut p h := ⟨rfl, rfl, fun _ _ ↦ rfl⟩

/-- Counting down changes the count and nothing else. -/
theorem of_countDown {t : Transition} (hq : p.countDown = .ok (q, t)) :
    ∃ d, q = { p with deciding := d } := by
  rw [countDown] at hq
  split at hq
  · cases hq
  · obtain ⟨rfl, -⟩ := Prod.mk.inj (Except.ok.inj hq)
    exact ⟨_, rfl⟩

/-- Forgetting a flow changes what is noted of this one. -/
theorem sameBut_forget (hq : p.forget h = .ok (q, t)) : p.SameBut q h := by
  rw [forget] at hq
  split at hq
  · obtain ⟨rfl, -⟩ := Prod.mk.inj (Except.ok.inj hq)
    exact .refl p h
  · have hless : ∀ d, p.SameBut
        { p with results := p.results.filter (fun e ↦ e.1 ≠ h), deciding := d } h := fun d ↦
      ⟨rfl, rfl, fun g hg ↦ (lookup_filter p.results h g).trans (if_neg hg)⟩
    dsimp only at hq
    split at hq
    · obtain ⟨⟨q', t'⟩, hdown, heq⟩ := map_eq_ok.1 hq
      obtain ⟨rfl, -⟩ := Prod.mk.inj heq
      obtain ⟨d, rfl⟩ := of_countDown hdown
      exact hless d
    · obtain ⟨rfl, -⟩ := Prod.mk.inj (Except.ok.inj hq)
      exact hless _

/-- An answer that is noted is heard, however many flows decide. -/
theorem sameBut_record {r : Bool} (hfilter : p.filter.check c = .ok true)
    (htest : p.test.check c = .ok r) (d : Nat) :
    p.SameBut { p.record h r with deciding := d } h ∧
    Hears { p.record h r with deciding := d } h c :=
  ⟨⟨rfl, rfl, fun g hg ↦ (result?_record p h g r).trans (if_neg hg)⟩,
    true, hfilter, fun _ ↦ ⟨r, htest, (result?_record p h h r).trans (if_pos rfl)⟩⟩

/-- **A flow that is asked about is heard of.** -/
theorem sameBut_examine (hq : p.examine h c = .ok (q, t)) : p.SameBut q h ∧ q.Hears h c := by
  obtain ⟨passes, hfilter, hq⟩ := bind_eq_ok.1 hq
  cases passes with
  | false =>
    obtain ⟨rfl, -⟩ := Prod.mk.inj (Except.ok.inj hq)
    exact ⟨.refl p h, false, hfilter, by simp⟩
  | true =>
    obtain ⟨r, htest, hq⟩ := bind_eq_ok.1 hq
    suffices hnoted : ∃ d, q = { p.record h r with deciding := d } by
      obtain ⟨d, rfl⟩ := hnoted
      exact sameBut_record hfilter htest d
    have hof : ∀ {d} {o : Option Transition},
        Except.ok ({ p.record h r with deciding := d }, o) = (Except.ok (q, t) : Checked _) →
          ∃ d, q = { p.record h r with deciding := d } := fun heq ↦
            ⟨_, (Prod.mk.inj (Except.ok.inj heq)).1.symm⟩
    dsimp only at hq
    split at hq
    · split at hq
      · exact hof hq
      · exact hof hq
    · split at hq
      · exact hof hq
      · split at hq
        · exact hof hq
        · obtain ⟨⟨q', t'⟩, hdown, heq⟩ := bind_eq_ok.1 hq
          obtain ⟨rfl, -⟩ := Prod.mk.inj (Except.ok.inj heq)
          exact of_countDown hdown

/-- **A probe hears of a change of a flow**, and notes nothing else. -/
theorem sameBut_update {change : FlowChange} (hq : p.update h change = .ok (q, t)) :
    p.SameBut q h ∧ ∀ c, change.present = some c → q.Hears h c := by
  have hexamine : ∀ {c}, p.examine h c = .ok (q, t) → p.SameBut q h ∧ ∀ c', some c = some c' →
      q.Hears h c' := by
    intro c hq
    obtain ⟨hsame, hears⟩ := sameBut_examine hq
    exact ⟨hsame, fun _ heq ↦ Option.some.inj heq ▸ hears⟩
  cases change with
  | deleted => exact ⟨sameBut_forget hq, by rintro c ⟨⟩⟩
  | added c =>
    rw [update] at hq
    rw [FlowChange.present]
    split at hq
    · rw [if_pos ‹_›]
      exact hexamine hq
    · obtain ⟨rfl, -⟩ := Prod.mk.inj (Except.ok.inj hq)
      rw [if_neg ‹_›]
      exact ⟨.refl p h, by rintro c ⟨⟩⟩
  | modified c =>
    rw [update] at hq
    rw [FlowChange.present]
    split at hq
    · rw [if_pos ‹_›]
      exact hexamine hq
    · rw [if_neg ‹_›]
      exact ⟨sameBut_forget hq, by rintro c ⟨⟩⟩

/-- The flows that it is asked about a probe hears of. -/
theorem hears_of_survey {l : List (Handle × Chain)} {ts : List (Option Handle × Transition)}
    (hq : p.survey l = .ok (q, ts)) : q.question = p.question ∧
      (∀ h, (∀ c, (h, c) ∉ l) → q.result? h = p.result? h) ∧
      ∀ h c, (h, c) ∈ l → (∀ c', (h, c') ∈ l → c' = c) → q.Hears h c := by
  induction l generalizing p ts with
  | nil =>
    obtain ⟨rfl, -⟩ := Prod.mk.inj (Except.ok.inj hq)
    exact ⟨rfl, fun _ _ ↦ rfl, by rintro h c ⟨⟩⟩
  | cons e l ih =>
    obtain ⟨h₀, c₀⟩ := e
    -- the first flow is heard of, and then the others
    obtain ⟨mid, ts', hrest, hfirst⟩ : ∃ mid ts', mid.survey l = .ok (q, ts') ∧
        p.SameBut mid h₀ ∧ mid.Hears h₀ c₀ := by
      rw [survey] at hq
      obtain ⟨passes, hfilter, hq⟩ := bind_eq_ok.1 hq
      cases passes with
      | false => exact ⟨p, ts, hq, .refl p h₀, false, hfilter, by simp⟩
      | true =>
        obtain ⟨r, htest, hq⟩ := bind_eq_ok.1 hq
        dsimp only at hq
        split at hq
        · obtain ⟨⟨q', ts'⟩, hrest, heq⟩ := bind_eq_ok.1 hq
          obtain ⟨rfl, -⟩ := Prod.mk.inj (Except.ok.inj heq)
          exact ⟨_, ts', hrest, sameBut_record hfilter htest _⟩
        · exact ⟨_, ts, hq, sameBut_record hfilter htest _⟩
    obtain ⟨hquestion, hother, hl⟩ := ih hrest
    have hsame := hquestion.trans hfirst.1.question
    refine ⟨hsame, fun h hh ↦ ?_, fun h c hmem honly ↦ ?_⟩
    · have hne : h ≠ h₀ := fun heq ↦ hh c₀ (heq ▸ List.mem_cons_self)
      exact (hother h fun c hc ↦ hh c (List.mem_cons_of_mem _ hc)).trans (hfirst.1.result? h hne)
    · by_cases hlater : ∃ c', (h, c') ∈ l
      · obtain ⟨c', hc'⟩ := hlater
        obtain rfl := honly c' (List.mem_cons_of_mem _ hc')
        exact hl h c' hc' fun c hc ↦ honly c (List.mem_cons_of_mem _ hc)
      · rcases List.mem_cons.1 hmem with heq | hmem
        · obtain ⟨rfl, rfl⟩ := Prod.mk.inj heq
          exact hfirst.2.congr hquestion (hother h fun c hc ↦ hlater ⟨c, hc⟩)
        · exact absurd ⟨c, hmem⟩ hlater

/-- **A probe that is started has heard of the flows that are there.** -/
theorem hears_of_start {l : List (Handle × Chain)} {ts : List (Option Handle × Transition)}
    (hq : p.start l = .ok (q, ts)) (hmem : (h, c) ∈ l) (honly : ∀ c', (h, c') ∈ l → c' = c) :
    q.Hears h c := by
  obtain ⟨⟨mid, ts'⟩, hsurvey, hq⟩ := bind_eq_ok.1 hq
  obtain ⟨rfl, -⟩ := Prod.mk.inj (Except.ok.inj hq)
  exact ((hears_of_survey hsurvey).2.2 h c hmem honly).congr rfl rfl

/-- A probe that was started runs. -/
theorem isRunning_of_start {l : List (Handle × Chain)} {ts : List (Option Handle × Transition)}
    (hq : p.start l = .ok (q, ts)) : q.isRunning = true := by
  obtain ⟨⟨mid, ts'⟩, -, hq⟩ := bind_eq_ok.1 hq
  obtain ⟨rfl, -⟩ := Prod.mk.inj (Except.ok.inj hq)
  rfl

end Probe

/-! ### A network with its probes -/

/-- The probe has heard of the flow, if this has headers and its way is known. -/
def Network.Heard (net : Network) (p : Probe) (h : Handle) : Prop :=
  ∀ f stops, net.flows.find? h = some f → f.isAlive = true → net.Travels h stops →
    p.Hears h ⟨f.processed, stops⟩

/-- All nodes are informed, and **running probes have heard of the flows at their nodes**, those in
`V` apart. -/
structure Network.Minded (S : Set NodeKey) (X U V : Set Handle) (net : Network) : Prop
    extends net.Watched S X U where
  /-- No flow came from one that is still to come. -/
  parents : ∀ h f p, net.flows.find? h = some f → f.parent = some p → net.flows.Knows p
  /-- A flow of which no probe knows anything is not listed at one, unless it is left out of
  account. -/
  apart : ∀ h ∈ U, h ∉ V → ∀ n ∈ net.nodes, h ∈ n.flows → n.probe? = none
  heard : ∀ n ∈ net.nodes, ∀ p, n.probe? = some p → p.isRunning = true → ∀ h ∈ n.flows, h ∉ V →
    net.Heard p h

namespace Network

/-- What was heard is still right if the flow has the same headers and came the same way. -/
theorem Heard.carry (hheard : net.Heard p h)
    (hways : ∀ stops, net'.Travels h stops → net.Travels h stops)
    (hflow : ∀ f', net'.flows.find? h = some f' →
      ∃ f, net.flows.find? h = some f ∧ f'.processed = f.processed)
    (hquestion : q.question = p.question) (hresult : q.result? h = p.result? h) :
    net'.Heard q h := by
  intro f' stops hf' hlive ht
  obtain ⟨f, hf, hsame⟩ := hflow f' hf'
  rw [Flow.isAlive, hsame] at hlive
  rw [hsame]
  exact (hheard f stops hf hlive (hways stops ht)).congr hquestion hresult

namespace Minded

/-- More may be left out of account. -/
theorem mono (hM : net.Minded S X U V) (hX : X ⊆ X') (hU : U' ⊆ U) (hV : V ⊆ V') :
    net.Minded S X' U' V' where
  toWatched := hM.toWatched.mono hX hU
  parents := hM.parents
  apart h hh hout := hM.apart h (hU hh) fun hmem ↦ hout (hV hmem)
  heard n hn p hp hrunning h hh hout := hM.heard n hn p hp hrunning h hh fun hmem ↦ hout (hV hmem)

/-- It need not be said any more of which flows probes know nothing. -/
theorem settle (hM : net.Minded S X U V) : net.Minded S X ∅ V :=
  hM.mono subset_rfl (Set.empty_subset U) subset_rfl

/-- Probes that were asleep may be started. -/
theorem awaken (hM : net.Minded S X U V) : net.Minded ∅ X U V :=
  ⟨hM.toWatched.awaken, hM.parents, hM.apart, hM.heard⟩

/-- Only the faces of the nodes and the flows are of account. -/
theorem of_face (hM : net.Minded S X U V) (hface : net'.face = net.face) : net'.Minded S X U V := by
  have hflows := flows_of_face hface
  have hways : ∀ h stops, net'.Travels h stops → net.Travels h stops := fun h stops ht ↦
    ht.back_all (fun g f hf ↦ ⟨f, hflows ▸ hf, rfl⟩) fun m hm ↦ by
      obtain ⟨n, hn, hsame⟩ := exists_of_face hface hm
      exact ⟨n, hn, Node.key_of_face hsame, Node.hop_of_core (Node.core_of_face hsame),
        fun g hg ↦ Node.flows_of_face hsame ▸ hg⟩
  refine ⟨hM.toWatched.of_face hface, hflows ▸ hM.parents, fun h hh hout m hm hmem ↦ ?_,
    fun m hm p hp hrunning h hh hout ↦ ?_⟩
  all_goals obtain ⟨n, hn, hsame⟩ := exists_of_face hface hm
  · rw [← Node.probe?_of_face hsame]
    exact hM.apart h hh hout n hn (Node.flows_of_face hsame ▸ hmem)
  · refine (hM.heard n hn p (Node.probe?_of_face hsame ▸ hp) hrunning h
      (Node.flows_of_face hsame ▸ hh) hout).carry
      (hways h) (fun f hf ↦ ⟨f, hflows ▸ hf, rfl⟩) rfl rfl

/-- **One flow has changed**, which is left out of account, or not known to probes, or has the same
headers. -/
theorem withFlow {e : Flow → Flow} (hM : net.Minded S ∅ U V) (hway : ∀ f, (e f).way = f.way)
    (hV : V ⊆ V') (hh : h ∈ X ∧ h ∈ V' ∨ h ∈ U ∨ ∀ f, (e f).processed = f.processed) :
    (withFlow net h e).Minded S X U V' := by
  have hflow : ∀ g f', (Engine.withFlow net h e).flows.find? g = some f' →
      ∃ f, net.flows.find? g = some f ∧ (f' = f ∨ g = h ∧ f' = e f) := by
    intro g f' hf'
    by_cases hgh : g = h
    · subst hgh
      obtain ⟨f, hf, rfl⟩ :=
        Option.map_eq_some_iff.1 ((Arena.find?_modify.trans (if_pos rfl)).symm.trans hf')
      exact ⟨f, hf, .inr ⟨rfl, rfl⟩⟩
    · exact ⟨f', (Arena.find?_modify_of_ne hgh).symm.trans hf', .inl rfl⟩
  have hways : ∀ g stops, (Engine.withFlow net h e).Travels g stops →
      net.Travels g stops := fun g stops ht ↦
    ht.back_all (fun g f' hf' ↦ by
      obtain ⟨f, hf, rfl | ⟨-, rfl⟩⟩ := hflow g f' hf'
      · exact ⟨f', hf, rfl⟩
      · exact ⟨f, hf, hway f⟩) fun m hm ↦ ⟨m, hm, rfl, rfl, List.Subset.refl _⟩
  refine ⟨hM.toWatched.withFlow (fun f ↦ Flow.node_eq (hway f)) ?_, fun g f' p hf' hp ↦ ?_,
    fun g hg hout ↦ hM.apart g hg fun hmem ↦ hout (hV hmem), fun n hn p hp hrunning g hg hout ↦ ?_⟩
  · exact hh.imp And.left fun hh ↦
      hh.imp_right fun hsame f ↦ by rw [Flow.isAlive, Flow.isAlive, hsame]
  · obtain ⟨f, hf, rfl | ⟨-, rfl⟩⟩ := hflow g f' hf'
    · exact (hM.parents g f' p hf hp).modify
    · exact (hM.parents g f p hf ((Flow.parent_eq (hway f)).symm.trans hp)).modify
  · have hout' : g ∉ V := fun hmem ↦ hout (hV hmem)
    refine (hM.heard n hn p hp hrunning g hg hout').carry (hways g) (fun f' hf' ↦ ?_) rfl rfl
    obtain ⟨f, hf, rfl | ⟨rfl, rfl⟩⟩ := hflow g f' hf'
    · exact ⟨f', hf, rfl⟩
    · refine ⟨f, hf, ?_⟩
      rcases hh with ⟨-, hin⟩ | hin | hsame
      · exact absurd hin hout
      · exact absurd ((hM.apart g hin hout' n hn hg).symm.trans hp) (by simp)
      · exact hsame f

/-- **Of a new flow no probe knows anything**, and no flow came from it. -/
theorem insert (hM : net.Minded S ∅ ∅ V) (hparent : ∀ p, f.parent = some p → net.flows.Knows p) :
    Minded S ∅ {net.flows.nextHandle} V { net with flows := net.flows.insert f } := by
  -- what is known is not the new flow, and neither is what it came from, so its way is the one it
  -- had
  have hold : ∀ g f', (net.flows.insert f).find? g = some f' → net.flows.Knows g →
      net.flows.find? g = some f' := by
    intro g f' hf' hknown
    rcases Arena.of_find?_insert hM.valid hf' with ⟨rfl, -⟩ | ⟨-, hf'⟩
    · exact absurd hknown (Arena.not_knows_nextHandle hM.valid)
    · exact hf'
  have hlisted : ∀ n ∈ net.nodes, ∀ g ∈ n.flows, net.flows.Knows g := fun n hn g hg ↦ by
    obtain ⟨f', hf', -⟩ := (hM.nodes n hn).roster g hg
    exact .inr ⟨f', hf'⟩
  have hways : ∀ g stops, net.flows.Knows g →
      Travels { net with flows := net.flows.insert f } g stops →
      net.Travels g stops := fun g stops hknown ht ↦
    ht.back hknown (fun g f' p hg hf' hp ↦ hM.parents g f' p (hold g f' hf' hg) hp)
      (fun g f' hg hf' ↦ ⟨f', hold g f' hf' hg, rfl⟩) fun m hm g hg _ ↦ ⟨m, hm, rfl, rfl, hg⟩
  refine ⟨hM.toWatched.insert f, fun g f' p hf' hp ↦ ?_, fun g hg _ n hn hmem ↦ ?_,
    fun n hn p hp hrunning g hg hout ↦ ?_⟩
  · rcases Arena.of_find?_insert hM.valid hf' with ⟨-, rfl⟩ | ⟨-, hf'⟩
    · exact (hparent p hp).insert hM.valid
    · exact (hM.parents g f' p hf' hp).insert hM.valid
  · exact absurd (Set.mem_singleton_iff.1 hg ▸ hlisted n hn g hmem)
      (Arena.not_knows_nextHandle hM.valid)
  · have hknown := hlisted n hn g hg
    exact (hM.heard n hn p hp hrunning g hg hout).carry (hways g · hknown)
      (fun f' hf' ↦ ⟨f', hold g f' hf' hknown, rfl⟩) rfl rfl

/-- No flow came from the new one. -/
theorem childless (hM : net.Minded S X U V) (hparent : ∀ p, f.parent = some p → net.flows.Knows p) :
    ∀ g k, (net.flows.insert f).find? g = some k → k.parent ≠ some net.flows.nextHandle := by
  intro g k hk hp
  refine Arena.not_knows_nextHandle hM.valid ?_
  rcases Arena.of_find?_insert hM.valid hk with ⟨-, rfl⟩ | ⟨-, hk⟩
  · exact hparent _ hp
  · exact hM.parents g k _ hk hp

/-- **A flow is listed that was not**, and from which no flow came. At a probe it is left out of
account. -/
theorem enlist (hM : net.Minded S X U V) (hf : net.flows.find? h = some f) (hnode : f.node = key)
    (hnew : ∀ n ∈ net.nodes, n.key = key → h ∉ n.flows)
    (hchildless : ∀ g k, net.flows.find? g = some k → k.parent ≠ some h)
    (hplace : h ∈ V ∨ ∀ n ∈ net.nodes, n.key = key → n.probe? = none) :
    (Engine.withNode net key fun n ↦ { n with flows := n.flows ++ [h] }).Minded S X U V := by
  have hold : ∀ m ∈ (Engine.withNode net key fun n ↦ { n with flows := n.flows ++ [h] }).nodes,
      ∃ n ∈ net.nodes, n.key = m.key ∧ n.core = m.core ∧ n.probe? = m.probe? ∧
        ∀ g ∈ m.flows, g ∈ n.flows ∨ g = h ∧ n.key = key := by
    intro m hm
    obtain ⟨n, hn, rfl⟩ := List.mem_map.1 hm
    refine ⟨n, hn, ?_⟩
    split
    · exact ⟨rfl, rfl, rfl, fun g hg ↦ (List.mem_append.1 hg).imp_right fun hg ↦
        ⟨List.mem_singleton.1 hg, beq_iff_eq.1 ‹_›⟩⟩
    · exact ⟨rfl, rfl, rfl, fun g hg ↦ .inl hg⟩
  have hways : ∀ g stops, g ≠ h →
      (Engine.withNode net key fun n ↦ { n with flows := n.flows ++ [h] }).Travels g stops →
      net.Travels g stops :=
    fun g stops hne ht ↦ ht.back (P := (· ≠ h)) hne
      (fun g k p _ hk hp hph ↦ hchildless g k hk (hph ▸ hp))
      (fun g k _ hk ↦ ⟨k, hk, rfl⟩) fun m hm g hg hne ↦ by
        obtain ⟨n, hn, hkey, hcore, -, hlist⟩ := hold m hm
        exact ⟨n, hn, hkey, Node.hop_of_core hcore, (hlist g hg).resolve_right fun hgh ↦ hne hgh.1⟩
  -- the flow itself is left out of account where there is a probe
  have hself : ∀ g, g ∉ V → ∀ n ∈ net.nodes, g = h ∧ n.key = key →
      n.probe? = none := fun g hout n hn hgh ↦
    hplace.elim (fun hmem ↦ absurd (hgh.1 ▸ hmem) hout) fun hplain ↦ hplain n hn hgh.2
  refine ⟨hM.toWatched.enlist hf hnode hnew, hM.parents, fun g hg hout m hm hmem ↦ ?_,
    fun m hm p hp hrunning g hg hout ↦ ?_⟩
  all_goals obtain ⟨n, hn, -, -, hprobe, hlist⟩ := hold m hm
  · rw [← hprobe]
    exact (hlist g hmem).elim (hM.apart g hg hout n hn) (hself g hout n hn)
  · rcases hlist g hg with hg | hgh
    · have hne : g ≠ h := by
        rintro rfl
        obtain ⟨k, hk, hkey⟩ := (hM.nodes n hn).roster g hg
        obtain rfl := Option.some.inj (hf.symm.trans hk)
        exact hnew n hn (hkey.symm.trans hnode) hg
      exact (hM.heard n hn p (hprobe.trans hp) hrunning g hg hout).carry (hways g · hne)
        (fun k hk ↦ ⟨k, hk, rfl⟩) rfl rfl
    · exact absurd ((hself g hout n hn hgh).symm.trans (hprobe.trans hp)) (by simp)

/-- **A flow is gone**, and is listed no more. -/
theorem discard (hM : net.Minded S ∅ (Insert.insert h U) V') (hV : V' ⊆ Insert.insert h V)
    (hh : ∀ f, net.flows.find? h = some f → f.node = key) :
    Minded S ∅ U V (Engine.withNode { net with flows := net.flows.erase h } key fun n ↦
      { n with flows := n.flows.filter (· ≠ h) }) := by
  have hW := hM.toWatched.discard hh
  have hflow : ∀ g f, (net.flows.erase h).find? g = some f →
      g ≠ h ∧ net.flows.find? g = some f := fun g f hf ↦ by
    rw [Arena.find?_erase] at hf
    split at hf
    · cases hf
    · exact ⟨‹_›, hf⟩
  have hold : ∀ m ∈ (Engine.withNode { net with flows := net.flows.erase h } key fun n ↦
      { n with flows := n.flows.filter (· ≠ h) }).nodes,
      ∃ n ∈ net.nodes, n.core = m.core ∧ n.probe? = m.probe? ∧
        m.flows ⊆ n.flows := by
    intro m hm
    obtain ⟨n, hn, rfl⟩ := List.mem_map.1 hm
    refine ⟨n, hn, ?_⟩
    split
    · exact ⟨rfl, rfl, List.filter_subset_self _⟩
    · exact ⟨rfl, rfl, List.Subset.refl _⟩
  -- what is listed is still there, so it is another flow
  have hother : ∀ m ∈ (Engine.withNode { net with flows := net.flows.erase h } key fun n ↦
      { n with flows := n.flows.filter (· ≠ h) }).nodes, ∀ g ∈ m.flows, g ∉ V → g ∉ V' := by
    intro m hm g hg hout hmem
    obtain ⟨f, hf, -⟩ := (hW.nodes m hm).roster g hg
    exact (hV hmem).elim (hflow g f hf).1 hout
  refine ⟨hW, fun g f p hf hp ↦ (hM.parents g f p (hflow g f hf).2 hp).erase,
    fun g hg hout m hm hmem ↦ ?_, fun m hm p hp hrunning g hg hout ↦ ?_⟩
  all_goals obtain ⟨n, hn, hcore, hprobe, hsub⟩ := hold m hm
  · rw [← hprobe]
    exact hM.apart g (.inr hg) (hother m hm g hmem hout) n hn (hsub hmem)
  · refine (hM.heard n hn p (hprobe.trans hp) hrunning g (hsub hg) (hother m hm g hg hout)).carry
      (fun stops ht ↦ ?_) (fun f hf ↦ ⟨f, (hflow g f hf).2, rfl⟩) rfl rfl
    refine ht.back_all (fun k f hf ↦ ⟨f, (hflow k f hf).2, rfl⟩) fun m hm ↦ ?_
    obtain ⟨n, hn, hcore, -, hsub⟩ := hold m hm
    exact ⟨n, hn, congrArg Core.key hcore, Node.hop_of_core hcore, hsub⟩

/-- **A flow at a node that is no probe is noted nowhere**, and no probe has to hear of it. -/
theorem unknown (hM : net.Minded S ∅ U V) (hf : net.flows.find? h = some f)
    (hplain : ∀ n ∈ net.nodes, n.key = f.node → n.probe? = none) :
    net.Minded S ∅ (Insert.insert h U) V := by
  refine ⟨hM.toWatched.unknown hf hplain, hM.parents, fun g hg hout n hn hmem ↦ ?_, hM.heard⟩
  rcases hg with rfl | hg
  · obtain ⟨k, hk, hkey⟩ := (hM.nodes n hn).roster g hmem
    obtain rfl := Option.some.inj (hf.symm.trans hk)
    exact hplain n hn hkey.symm
  · exact hM.apart g hg hout n hn hmem

/-- One probe is another one, and the flows are as before. -/
theorem setProbe (hM : net.Minded S X U V) (hn : net.nodeAt? key = some n) (hp : n.probe? = some p)
    (hW : (Engine.withNode net key fun n ↦ { n with role := .probe q }).Watched S' X' U')
    (hU : ∀ g ∈ U', g ∉ V' → g ∈ U ∧ g ∉ V)
    (hother : ∀ m ∈ net.nodes, m.key ≠ key → ∀ g ∈ m.flows, g ∉ V' → g ∉ V)
    (hhere : q.isRunning = true → ∀ g ∈ n.flows, g ∉ V' → net.Heard q g) :
    (Engine.withNode net key fun n ↦ { n with role := .probe q }).Minded S' X' U' V' := by
  obtain ⟨hmem, hkey⟩ := nodeAt?_eq_some hn
  have hold : ∀ m' ∈ (Engine.withNode net key fun n ↦ { n with role := .probe q }).nodes,
      ∃ m ∈ net.nodes, m.flows = m'.flows ∧
        (m = n ∧ m'.probe? = some q ∨ m.key ≠ key ∧ m' = m) := by
    intro m' hm'
    obtain ⟨m, hm, rfl⟩ := List.mem_map.1 hm'
    refine ⟨m, hm, ?_⟩
    split
    · exact ⟨rfl, .inl ⟨eq_of_key_eq hM.nodup hm hmem ((beq_iff_eq.1 ‹_›).trans hkey.symm), rfl⟩⟩
    · exact ⟨rfl, .inr ⟨fun hkey ↦ ‹¬ _› (beq_iff_eq.2 hkey), rfl⟩⟩
  have hheard : ∀ {r g}, net.Heard r g →
      (Engine.withNode net key fun n ↦ { n with role := .probe q }).Heard r g :=
    fun hheard ↦ hheard.carry (fun stops ht ↦ ht.of_quiet (quiet_setProbe hM.nodup hn hp) hM.nodup)
      (fun f hf ↦ ⟨f, hf, rfl⟩) rfl rfl
  refine ⟨hW, hM.parents, fun g hg hout m' hm' hmem' ↦ ?_, fun m' hm' r hr hrunning g hg hout ↦ ?_⟩
  all_goals obtain ⟨m, hm, hlist, ⟨rfl, hq⟩ | ⟨hne, rfl⟩⟩ := hold m' hm'
  · obtain ⟨hg, hout⟩ := hU g hg hout
    exact absurd ((hM.apart g hg hout m hm (hlist ▸ hmem')).symm.trans hp) (by simp)
  · obtain ⟨hg, hout⟩ := hU g hg hout
    exact hM.apart g hg hout m' hm hmem'
  · obtain rfl := Option.some.inj (hq.symm.trans hr)
    exact hheard (hhere hrunning g (hlist ▸ hg) hout)
  · exact hheard (hM.heard m' hm r hr hrunning g hg (hother m' hm hne g hg hout))

/-- **Telling a probe**: what it is told of it hears, and what it has heard stays. -/
theorem notify {change : Network → Checked FlowChange} (hM : net.Minded S X U V)
    (hW : net'.Watched S ∅ U') (hf : net.flows.find? h = some f)
    (hl : Leads (Engine.notify f.node h change) net () net') (hV : V ⊆ Insert.insert h V')
    (hU : ∀ g ∈ U', g ∉ V' → g ∈ U ∧ g ∉ V)
    (htold : h ∈ V' ∨ (h ∈ U ∧ h ∉ V) ∨
      ∀ c stops, change net = .ok c → f.isAlive = true → net.Travels h stops →
      c.present = some ⟨f.processed, stops⟩) : net'.Minded S ∅ U' V' := by
  -- a flow that is not the one is heard of as before
  have hout : ∀ {g}, g ≠ h → g ∉ V' → g ∉ V := fun hne hout hmem ↦ (hV hmem).elim hne hout
  have hlisted : ∀ n ∈ net.nodes, h ∈ n.flows → n.key = f.node := fun n hn hmem ↦ by
    obtain ⟨k, hk, hkey⟩ := (hM.nodes n hn).roster h hmem
    obtain rfl := Option.some.inj (hf.symm.trans hk)
    exact hkey.symm
  obtain ⟨rfl, hidle⟩ | ⟨n, p, c, q, t, hn, hp, hrunning, hc, hq, rfl⟩ := hl.notify
  · refine ⟨hW, hM.parents, fun g hg hgout ↦ hM.apart g (hU g hg hgout).1 (hU g hg hgout).2,
      fun n hn p hp hrunning g hg hgout ↦ ?_⟩
    by_cases hgh : g = h
    · subst hgh
      have hstill := hidle n p (hlisted n hn hg ▸ nodeAt?_of_mem hM.nodup hn) hp
      exact absurd (hrunning.symm.trans hstill) (by simp)
    · exact hM.heard n hn p hp hrunning g hg (hout hgh hgout)
  · obtain ⟨hsame, hears⟩ := Probe.sameBut_update hq
    have hmem := (nodeAt?_eq_some hn).1
    refine hM.setProbe hn hp hW hU
      (fun m hm hne g hg ↦ hout fun hgh ↦ hne (hlisted m hm (hgh ▸ hg)))
      fun _ g hg hgout ↦ ?_
    by_cases hgh : g = h
    · subst hgh
      intro k stops hk hlive ht
      obtain rfl := Option.some.inj (hf.symm.trans hk)
      rcases htold with hin | ⟨hin, hVout⟩ | htold
      · exact absurd hin hgout
      · exact absurd ((hM.apart g hin hVout n hmem hg).symm.trans hp) (by simp)
      · exact hears _ (htold c stops hc hlive ht)
    · exact (hM.heard n hmem p hp hrunning g hg (hout hgh hgout)).carry (fun _ ht ↦ ht)
        (fun k hk ↦ ⟨k, hk, rfl⟩) hsame.question (hsame.result? g hgh)

/-- A flow that is gone is forgotten. It is left out of account, or is at no probe. -/
theorem notify_gone (hM : net.Minded S ∅ U V) (hf : net.flows.find? h = some f) (hV : V ⊆ V')
    (hh : h ∈ V' ∨ h ∈ U) (hl : Leads (Engine.notify f.node h gone) net () net') :
    net'.Minded S ∅ (Insert.insert h U) V' := by
  refine hM.notify (hM.toWatched.notify_gone hf hl) hf hl (hV.trans (Set.subset_insert h V'))
    (fun g hg hout ↦ ?_) ?_
  · exact ⟨hg.elim (fun hgh ↦ hgh ▸ hh.resolve_left (hgh ▸ hout)) id, fun hmem ↦ hout (hV hmem)⟩
  · by_cases hin : h ∈ V'
    · exact .inl hin
    · exact .inr (.inl ⟨hh.resolve_left hin, fun hmem ↦ hin (hV hmem)⟩)

/-- A probe is told of the way that the flow came. -/
theorem present_of_chainOf (hM : net.Minded S X U V) (hf : net.flows.find? h = some f)
    (hlive : f.isAlive = true) (ht : net.Travels h stops) (hc : net.chainOf h = .ok c) :
    (if Probe.hasHeaders c then some c else none) = some ⟨f.processed, stops⟩ := by
  obtain rfl := Except.ok.inj ((ht.chainOf hM.nodup hf).symm.trans hc)
  exact if_pos hlive

/-- **Of a flow that has changed a probe hears.** -/
theorem notify_changed (hM : net.Minded S {h} ∅ (Insert.insert h V))
    (hf : net.flows.find? h = some f)
    (hl : Leads (Engine.notify f.node h (changed h)) net () net') : net'.Minded S ∅ ∅ V := by
  refine hM.notify (hM.toWatched.notify_changed hf hl) hf hl subset_rfl (by rintro g ⟨⟩)
    (.inr (.inr fun c stops hc hlive ht ↦ ?_))
  obtain ⟨chain, hchain, rfl⟩ := Checked.map_eq_ok.1 hc
  exact hM.present_of_chainOf hf hlive ht hchain

/-- **Of a flow that has arrived a probe hears.** -/
theorem notify_arrived (hM : net.Minded S ∅ ∅ (Insert.insert h V)) (hf : net.flows.find? h = some f)
    (hl : Leads (Engine.notify f.node h (arrived h)) net () net') : net'.Minded S ∅ ∅ V := by
  refine hM.notify (hM.toWatched.notify_arrived hf hl) hf hl subset_rfl (by rintro g ⟨⟩)
    (.inr (.inr fun c stops hc hlive ht ↦ ?_))
  obtain ⟨chain, hchain, rfl⟩ := Checked.map_eq_ok.1 hc
  exact hM.present_of_chainOf hf hlive ht hchain

end Minded

end Network

end HeaderFlow
