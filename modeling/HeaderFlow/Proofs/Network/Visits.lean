import HeaderFlow.Proofs.Network.Prune

/-!
# Visits

While headers move, the layout stays. A visit of a flow nests visits of the flows that come from it,
so **visits are nested no deeper than there are flows above the one that is visited**, and `Kin`
bounds that by the number of places. Where the settings allow this depth, and any number of visits
in any time, the budget is not overrun (`Layout.Strains` says that they do not).

`Underway` is the state of a propagation in which `room` more visits can be nested, and `Cut` what
is left if the budget is overrun. `Welcomes` and `Renews` are what is asked of a way of visiting a
flow that has just arrived, and one that has changed; they are proved for each number of visits from
that for one less.

## Depth

A flow that has `d` flows above it is visited at a depth of at most `d + 1`, since each visit is
nested in the one of a flow above. So while such a flow is worked on, there is room for all visits
below it as long as `maxDepth ≤ room + d + 1`, the condition that stands in each lemma. With one
more flow above there is one visit less to be nested, and the sum stays. A flow can have no more
flows above it than there are places where it did not go round (`Newborn.le`), and **only a network
that has more places than visits may be nested can run out of room**.

## What is handed on

`Goes L s room d` is what is true of the network after some work on a flow with `d` flows above it:
flows with fewer above have been left alone (`Keeps`), and headers still move through the same
layout. It goes on along walks (`goes_forM`), and weakens to the flows above (`Goes.mono`).
-/

namespace HeaderFlow

open Engine

variable {net net' mid : Network} {L : Layout} {s : Settings} {room : Nat} {X : Set Handle}
  {h c fwd back : Handle} {f g : Flow} {d e : Nat} {key : NodeKey} {place : UInt64} {n m : Core}
  {side other : Pipe} {arrive : NodeKey → Handle → Engine Unit}
  {refresh : Handle → Option Pattern → Engine Unit} {measure : Measure}

/-! ### Progress of a propagation -/

/-- The settings limit the visits or their time, or allow fewer to be nested than there may be
reason for. -/
def Layout.Strains (L : Layout) (s : Settings) : Prop :=
  s.maxVisits ≠ 0 ∨ s.timeoutMs ≠ 0 ∨ s.maxDepth.toNat < L.places.card + 2

/-- The budget has the limits of the settings. -/
structure Network.Limited (net : Network) (s : Settings) : Prop where
  settings : net.settings = s
  maxDepth : net.budget.maxDepth = s.maxDepth.toNat
  maxVisits : net.budget.maxVisits = s.maxVisits.toNat
  untimed : s.timeoutMs = 0 → net.budget.timeout = none ∧ net.budget.deadline = none

/-- A budget that was not touched still has its limits. -/
theorem Network.Limited.congr (hL : net.Limited s) (hbudget : net'.budget = net.budget)
    (hsettings : net'.settings = net.settings) : net'.Limited s :=
  ⟨hsettings.trans hL.settings, hbudget ▸ hL.maxDepth, hbudget ▸ hL.maxVisits, hbudget ▸ hL.untimed⟩

/-- A budget keeps its limits when it starts over. -/
theorem Network.Limited.reset (hL : net.Limited s) :
    { net with budget := net.budget.reset }.Limited s :=
  ⟨hL.settings, hL.maxDepth, hL.maxVisits, fun hs ↦ by
    simp only [Budget.reset, (hL.untimed hs).1, Option.map_none, and_self]⟩

/-- Headers move through the layout, and `room` more visits can be nested. -/
structure Underway (L : Layout) (s : Settings) (room : Nat) (net : Network) : Prop
    extends net.Limited s where
  layout : net.layout = L
  wellFormed : L.WellFormed
  room : room + net.budget.depth = s.maxDepth.toNat
  kin : Kin net ∅

/-- The budget was overrun while headers moved through the layout. -/
structure Cut (L : Layout) (s : Settings) (net : Network) : Prop extends net.Limited s where
  layout : net.layout = L
  kin : Kin net ∅
  strains : L.Strains s

namespace Underway

/-- A step that leaves budget, settings and layout alone. -/
theorem step (hU : Underway L s room net)
    (hsame : net'.budget = net.budget ∧ net'.settings = net.settings)
    (hlayout : net'.layout = net.layout) (hK : Kin net' ∅) : Underway L s room net' := by
  obtain ⟨hbudget, hsettings⟩ := hsame
  exact ⟨hU.toLimited.congr hbudget hsettings, hlayout.trans hU.layout, hU.wellFormed,
    hbudget ▸ hU.room, hK⟩

/-- A steady step that prunes flows leaves everything else to go on. -/
theorem prunes {α : Type} {x : Engine α} {a : α} (hU : Underway L s room net) (hs : Steady x)
    (hl : Leads x net a net') (hp : Prunes d net net') : Underway L s room net' :=
  hU.step (hs.budget hl) hp.layout (hp.kin hU.kin)

/-- The layout through which headers move is well formed. -/
theorem layout_wellFormed (hU : Underway L s room net) : net.layout.WellFormed :=
  hU.layout ▸ hU.wellFormed

end Underway

/-- What becomes of a network in which a flow with `d` flows above it is worked on. -/
structure Goes (L : Layout) (s : Settings) (room d : Nat) (net net' : Network) : Prop where
  underway : Underway L s room net'
  keeps : Keeps d net net'

namespace Goes

/-- Nothing was done. -/
theorem refl (hU : Underway L s room net) : Goes L s room d net net := ⟨hU, .refl d net⟩

/-- One part of the work was done, and then another one. -/
theorem trans (hU : Underway L s room net) (h₁ : Goes L s room d net mid)
    (h₂ : Goes L s room d mid net') : Goes L s room d net net' :=
  ⟨h₂.underway, h₁.keeps.trans h₂.keeps hU.kin⟩

/-- What leaves alone all flows up to some depth leaves alone those that are higher. -/
theorem mono (hg : Goes L s room d net net') (hle : e ≤ d) : Goes L s room e net net' :=
  ⟨hg.underway, hg.keeps.mono hle⟩

end Goes

/-- A walk along a list, each step of which works on what is above `d` flows or less. -/
theorem goes_forM {α : Type} {l : List α} {x : α → Engine Unit} (hU : Underway L s room net)
    (hx : ∀ a ∈ l, ∀ mid, Goes L s room d net mid → Ends (x a) mid (Cut L s) fun _ net' ↦
      Goes L s room d mid net') :
    Ends (l.forM x) net (Cut L s) fun _ net' ↦ Goes L s room d net net' :=
  Ends.forM_of (.refl hU) fun a ha mid hmid ↦ (hx a ha mid hmid).weaken fun _ _ hnext ↦
    Goes.trans hU hmid hnext

/-- A steady computation that prunes. -/
theorem goes_steady {x : Engine Unit} (hU : Underway L s room net) (hs : Steady x)
    (hx : ∀ net', Leads x net () net' → Prunes d net net') :
    Ends x net (Cut L s) fun _ net' ↦ Goes L s room d net net' :=
  hs.ends fun _ net' hl ↦ ⟨hU.prunes hs hl (hx net' hl), (hx net' hl).toKeeps⟩

/-- **A visit overruns the budget only under strain**, as long as there is room for it. -/
theorem goes_visit {body : Engine Unit} (hU : Underway L s (room + 1) net)
    (hbody : Underway L s room { net with budget := net.budget.count } →
      Ends body { net with budget := net.budget.count } (Cut L s) fun _ net' ↦
        Goes L s room d { net with budget := net.budget.count } net') :
    Ends (visit body) net (Cut L s) fun _ net' ↦ Goes L s (room + 1) d net net' := by
  have hquiet : ∀ {net : Network} {b : Budget}, Kin net ∅ →
      Prunes d net { net with budget := b } := fun hK ↦ .of_quiet (.budget _ _) hK
  have hin : Underway L s room { net with budget := net.budget.count } :=
    ⟨⟨hU.settings, hU.maxDepth, hU.maxVisits, hU.untimed⟩, hU.layout, hU.wellFormed,
      by have := hU.room; simp only [Budget.count]; omega, (hquiet hU.kin).kin hU.kin⟩
  refine ends_visit (fun ho ↦ ?_) fun _ ↦ (hbody hin).weaken fun _ mid hmid ↦ ?_
  · refine ⟨⟨hU.settings, hU.maxDepth, hU.maxVisits, hU.untimed⟩, hU.layout, hin.kin, ?_⟩
    -- the depth is not what was passed
    by_cases hs : s.maxVisits = 0 ∧ s.timeoutMs = 0
    · have hvisits : net.budget.maxVisits = 0 := by rw [hU.maxVisits, hs.1]; rfl
      have hroom := hU.room
      have hdepth := hU.maxDepth
      have hlate : net.budget.count.isLate = false := by
        rw [Budget.isLate, Budget.count, (hU.untimed hs.2).2, Option.any_none, Bool.and_false]
      refine absurd ?_ ho
      rw [Budget.overrun?, if_neg (by simp only [Budget.count]; omega),
        if_neg (by simp [Budget.count, hvisits]), hlate, if_neg Bool.false_ne_true]
    · exact (not_and_or.1 hs).imp_right .inl
  · have hroom := hmid.underway.room
    have hmax := hU.room
    have hmid' := hmid.underway
    refine ⟨⟨⟨hmid'.settings, hmid'.maxDepth, hmid'.maxVisits, hmid'.untimed⟩, hmid'.layout,
      hU.wellFormed, ?_, (hquiet hmid'.kin).kin hmid'.kin⟩, ?_⟩
    · simp only [Budget.leave]
      omega
    · exact ((hquiet hU.kin).toKeeps.trans hmid.keeps hU.kin).trans
        (hquiet hmid'.kin).toKeeps hU.kin

/-- Where there is no room for a visit, the budget is overrun. -/
theorem ends_noRoom {Q : Unit → Network → Prop} (hU : Underway L s room net)
    (hstrains : L.Strains s) :
    Ends (do enter; tooDeep) net (Cut L s) Q := by
  have hcut : Cut L s { net with budget := net.budget.count } :=
    ⟨⟨hU.settings, hU.maxDepth, hU.maxVisits, hU.untimed⟩, hU.layout,
      (Prunes.of_quiet (d := 0) (.budget net _) hU.kin).kin hU.kin, hstrains⟩
  have henter : Ends enter net (Cut L s) fun _ ↦ Cut L s := ends_enter (fun _ ↦ hcut) fun _ ↦ hcut
  exact henter.bind fun _ _ hmid ↦ ends_tooDeep hmid

/-! ### Flows that go on -/

/-- The flow is listed, goes on, and has `d` flows above it. -/
structure Onward (net : Network) (h : Handle) (d : Nat) (f : Flow) : Prop where
  holds : net.Holds h f
  looped : f.looped = false
  forwards : net.layout.Forwards f.node
  line : Line net.flows h d

/-- A flow that goes on still does after work below it, and came the same way. -/
theorem Onward.keeps (ho : Onward net h d f) (hk : Keeps (d + 1) net net') (hK : Kin net X) :
    ∃ f', Onward net' h d f' ∧ f'.way = f.way := by
  obtain ⟨f', hf', hway, hloop⟩ := hk.holds ho.holds ho.line (Nat.lt_succ_self d)
  have hline := hk.line hK ho.holds ho.line (Nat.lt_succ_self d)
  refine ⟨f', ⟨hf', hloop.trans ho.looped, ?_, hline⟩, hway⟩
  rw [hk.layout, Flow.node_eq hway]
  exact ho.forwards

/-- The flow has just come out of a pipe, and is on no list yet. -/
structure Newborn (net : Network) (c : Handle) (d : Nat) (g : Flow) : Prop where
  live : net.flows.find? c = some g
  children : g.children = []
  looped : g.looped = false
  unlisted : ∀ key, c ∉ net.roster key
  parent : ∃ p f e, g.parent = some p ∧ Onward net p e f ∧ d = e + 1
  place : ∃ n, net.layout.core? g.node = some n ∧ n.kind ≠ .source
  entered : net.layout.prev g.node ≠ []

/-- The number of places bounds how many flows are above a new one. -/
theorem Newborn.le (hc : Newborn net c d g) (hK : Kin net ∅) : d ≤ net.layout.places.card + 1 := by
  obtain ⟨p, f, e, -, ho, rfl⟩ := hc.parent
  exact Nat.succ_le_succ (hK.line_le ho.holds ho.looped ho.forwards ho.line)

/-- What is asked of a way of visiting a flow that has just arrived. -/
def Welcomes (L : Layout) (s : Settings) (room : Nat) (arrive : NodeKey → Handle → Engine Unit) :
    Prop :=
  ∀ net c g d, Underway L s room net → Newborn net c d g → s.maxDepth.toNat ≤ room + d →
    Ends (arrive g.node c) net (Cut L s) fun _ net' ↦ Goes L s room d net net'

/-- What is asked of a way of visiting a flow that has changed. -/
def Renews (L : Layout) (s : Settings) (room : Nat)
    (refresh : Handle → Option Pattern → Engine Unit) : Prop :=
  ∀ net h f d loss, Underway L s room net → net.Holds h f → Line net.flows h d →
    s.maxDepth.toNat ≤ room + d →
    Ends (refresh h loss) net (Cut L s) fun _ net' ↦ Goes L s room (d + 1) net net'

/-! ### Going down a pipe -/

/-- The handle is the forward side of a pipe, if it names one. -/
def Layout.Opens (L : Layout) (fwd : Handle) : Prop :=
  ∀ side, L.pipes.find? fwd = some side → ∃ back other n m, L.Joins fwd back side other n m

theorem Layout.WellFormed.opens (hL : L.WellFormed) (hfwd : fwd ∈ L.next key) : L.Opens fwd := by
  intro side hside
  obtain ⟨back, a, b, n, m, hj, -⟩ := hL.next key fwd hfwd
  obtain rfl := Option.some.inj (hj.front.symm.trans hside)
  exact ⟨back, b, n, m, hj⟩

/-- No pipe leads to a source. -/
theorem Layout.Joins.kind_ne_source {a b : Pipe} (hL : L.WellFormed)
    (hj : L.Joins fwd back a b n m) : m.kind ≠ .source := by
  intro hkind
  have hproper := hL.proper m (mem_of_core? hj.receiver)
  rw [Core.Proper, hkind] at hproper
  exact absurd hj.inPort (hproper.1 ▸ List.not_mem_nil)

/-- No pipe leads away from a probe. -/
theorem Layout.Joins.kind_ne_probe {a b : Pipe} (hL : L.WellFormed)
    (hj : L.Joins fwd back a b n m) : n.kind ≠ .probe := by
  intro hkind
  have hproper := hL.proper n (mem_of_core? hj.sender)
  rw [Core.Proper, hkind] at hproper
  exact absurd hj.outPort (hproper.1 ▸ List.not_mem_nil)

/-- **The child of a flow that goes on is new when it is stored.** -/
theorem newborn_insert (hK : Kin net ∅) (ho : Onward net h d f)
    (hj : net.layout.Joins fwd back side other n m) (hL : net.layout.WellFormed)
    (hg : g.node = other.node ∧ g.parent = some h ∧ g.children = [] ∧ g.looped = false) :
    Newborn { net with flows := net.flows.insert g } net.flows.nextHandle (d + 1) g := by
  obtain ⟨hnode, hparent, hchildren, hloop⟩ := hg
  obtain ⟨f', ho', -⟩ := ho.keeps (Prunes.insert (f := g) hK).toKeeps hK
  refine ⟨Arena.find?_insert_self hK.valid, hchildren, hloop,
    fun key ↦ hK.not_mem_roster (Arena.find?_nextHandle hK.valid), ⟨h, f', d, hparent, ho', rfl⟩,
    ⟨m, hnode ▸ hj.receiver, hj.kind_ne_source hL⟩, fun hnil ↦ ?_⟩
  have hprev : back ∈ net.layout.prev g.node := hnode ▸ hj.prev
  exact absurd (hnil ▸ hprev) List.not_mem_nil

/-- Sending headers on works below the flow. -/
theorem goes_sendHeaders {processed : Space} (harrive : Welcomes L s room arrive)
    (hU : Underway L s room net) (ho : Onward net h d f) (hroom : s.maxDepth.toNat ≤ room + d + 1)
    (hj : L.Joins fwd back side other n m) :
    Ends (sendHeaders arrive key h fwd side measure f processed) net (Cut L s) fun _ net' ↦
      Goes L s room (d + 1) net net' := by
  rw [sendHeaders, ends_check_bind]
  intro out _
  split
  · exact ends_pure.2 (.refl hU)
  · rw [ends_pipe_bind]
    intro other' hother
    have hj' : net.layout.Joins fwd back side other n m := hU.layout ▸ hj
    rw [hj'.reverse] at hother
    obtain rfl := Option.some.inj (hj'.rear.symm.trans hother)
    refine Ends.steady_bind (tame_reportLost _ _ _ _ _ _ _).steady fun _ mid hl ↦ ?_
    obtain rfl := hl.reportLost
    rw [ends_insertFlow_bind]
    have hnew := Prunes.insert (d := d + 1) (f := ⟨other.node, f.source, out, none, other.port,
      some fwd, some h, [], false⟩) hU.kin
    have hU' : Underway L s room { mid with flows := mid.flows.insert ⟨other.node, f.source, out,
        none, other.port, some fwd, some h, [], false⟩ } :=
      ⟨⟨hU.settings, hU.maxDepth, hU.maxVisits, hU.untimed⟩, hU.layout, hU.wellFormed, hU.room,
        hnew.kin hU.kin⟩
    refine (harrive _ _ _ (d + 1) hU' (newborn_insert hU.kin ho hj'
      hU.layout_wellFormed ⟨rfl, rfl, rfl, rfl⟩) (by omega)).weaken fun _ _ hnext ↦ ?_
    exact ⟨hnext.underway, hnew.toKeeps.trans hnext.keeps hU.kin⟩

/-- **Sending a flow down a pipe** works below the flow. -/
theorem goes_send (harrive : Welcomes L s room arrive) (hU : Underway L s room net)
    (ho : Onward net h d f) (hroom : s.maxDepth.toNat ≤ room + d + 1) (hfwd : L.Opens fwd) :
    Ends (send arrive key h fwd measure) net (Cut L s) fun _ net' ↦
      Goes L s room (d + 1) net net' := by
  rw [send, ends_pipe?_bind]
  cases hside : net.pipes.find? fwd with
  | none => exact ends_pure.2 (.refl hU)
  | some side =>
    obtain ⟨back, other, n, m, hj⟩ := hfwd side (hU.layout ▸ hside)
    refine Ends.steady_bind (tame_blocked _ _ _).steady fun blocked mid hl ↦ ?_
    obtain rfl := hl.eq_of_blocked
    split
    · exact ends_pure.2 (.refl hU)
    · rw [ends_flow_bind]
      intro f' hf'
      obtain rfl := Option.some.inj (ho.holds.1.symm.trans hf')
      split
      · exact goes_sendHeaders harrive hU ho hroom hj
      · exact ends_pure.2 (.refl hU)

/-- A walk over pipes, down each of which a flow is sent or not. -/
theorem goes_forM_send {l : List Handle} {x : Handle → Engine Unit}
    (harrive : Welcomes L s room arrive) (hU : Underway L s room net) (ho : Onward net h d f)
    (hroom : s.maxDepth.toNat ≤ room + d + 1) (hl : ∀ fwd ∈ l, L.Opens fwd)
    (hx : ∀ fwd, (∃ key measure, x fwd = send arrive key h fwd measure) ∨ x fwd = pure ()) :
    Ends (l.forM x) net (Cut L s) fun _ net' ↦ Goes L s room (d + 1) net net' := by
  refine goes_forM hU fun fwd hfwd mid hmid ↦ ?_
  obtain ⟨f', ho', -⟩ := ho.keeps hmid.keeps hU.kin
  rcases hx fwd with ⟨key, measure, hx⟩ | hx
  · rw [hx]
    exact goes_send harrive hmid.underway ho' hroom (hl fwd hfwd)
  · rw [hx]
    exact ends_pure.2 (.refl hmid.underway)

/-- What a node lists as pipes to others are forward sides. -/
theorem opens_next {n : Node} (hU : Underway L s room net) (hn : net.nodeAt? key = some n) :
    ∀ fwd ∈ n.next, L.Opens fwd := fun fwd hfwd ↦ by
  have hmem : fwd ∈ L.next key := by
    rw [← hU.layout]
    change fwd ∈ net.tied Node.next key
    rwa [Network.tied_of_nodeAt? hn]
  exact hU.wellFormed.opens hmem

/-- **Sending a flow down all pipes** works below the flow. -/
theorem goes_sendAll (harrive : Welcomes L s room arrive) (hU : Underway L s room net)
    (ho : Onward net h d f) (hroom : s.maxDepth.toNat ≤ room + d + 1) :
    Ends (sendAll arrive key h) net (Cut L s) fun _ net' ↦ Goes L s room (d + 1) net net' := by
  rw [sendAll, ends_node_bind]
  intro n hn
  exact goes_forM_send harrive hU ho hroom (opens_next hU hn) fun _ ↦ .inl ⟨key, .flow, rfl⟩

end HeaderFlow
