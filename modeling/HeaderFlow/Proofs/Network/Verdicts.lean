import HeaderFlow.Proofs.Network.Bookkeeping

/-!
# Verdicts

The verdict of a probe should say whether some flow at it passes filter and test, or whether all
that pass the filter pass the test (`Probe.Fresh`). In every network that can arise a running probe
has heard of every flow at its node (`Network.Minded`), and its notes are about such flows only
(`Network.BearsOut`), so **it follows them** (`Network.Arises.follows`).

The verdict **errs on one side only** (`Network.Arises.verdict`). An existential probe holds if it
should, and a universal one that holds is right. It errs on the other side because of flows that
were noted and do not pass the filter any more (`Network.holds_outdated`). When a probe is restarted
there are none, so its verdict is exact (`Network.Arises.restart_exact`), and a restart can change
it in one direction only (`Network.Arises.restart_corrects`).

## Three facts about notes

* Every flow at the node that has headers came by some way (`Live.travels`), so a probe that looks
  at it finds what it asks about.
* A flow that passes the filter has been noted with the answer of the test, from when it arrived or
  last changed.
* A flow that does not pass the filter is not noted anew, **but an old note stays**.

The first two give one side of the verdict, and the third one is why the other side fails. Starting
a probe throws all notes away and then looks at each flow that is there (`lookup_liveChains`,
`of_restart`), after which the third case does not arise.
-/

namespace HeaderFlow

open Engine

variable {net net' : Network} {S : Set NodeKey} {X U V : Set Handle} {h : Handle} {f : Flow}
  {m n : Node} {p q : Probe} {c : Chain} {d : Nat} {id : NodeId} {key : NodeKey}

namespace Network

/-- The way of a flow that is at the node and has headers. -/
def wayAt (net : Network) (n : Node) (h : Handle) : Option Chain :=
  if h ∈ n.flows ∧ (net.flows.find? h).any Flow.isAlive then (net.chainOf h).toOption else none

/-- What a probe finds when it looks at a flow: the flow is listed, has headers, and came by the
way. -/
theorem wayAt_eq_some : net.wayAt n h = some c ↔
    h ∈ n.flows ∧ (∃ f, net.flows.find? h = some f ∧ f.isAlive = true) ∧ net.chainOf h = .ok c := by
  have hok : (net.chainOf h).toOption = some c ↔ net.chainOf h = .ok c := by
    cases net.chainOf h <;> simp [Except.toOption]
  rw [wayAt, Option.ite_none_right_eq_some, hok, Option.any_eq_true, and_assoc]

/-! ### All flows have a way -/

/-- **Every flow that is listed came by some way**: going up, all flows are listed, and this comes
to an end. -/
theorem Live.travels (hlive : net.Live) (hd : Line net.flows h d) (hlists : net.Lists h) :
    ∃ stops, net.Travels h stops := by
  have hlodges : ∀ {h f}, net.Lists h → net.flows.find? h = some f →
      ∃ stop, net.Lodges h f stop := by
    rintro h f ⟨m, hm, hmem⟩ hf
    obtain ⟨g, hg, hkey⟩ := hlive.flows m hm h hmem
    obtain rfl := Option.some.inj (hf.symm.trans hg)
    exact ⟨_, hf, m, hm, hkey.symm, hmem, rfl⟩
  induction hd with
  | @top h f hf hpast =>
    obtain ⟨stop, hl⟩ := hlodges hlists hf
    refine ⟨_, .root hl (Option.eq_none_iff_forall_ne_some.2 fun p hp ↦ ?_)⟩
    -- a flow that another came from is listed, so it is not gone
    obtain ⟨m, hm, hmem⟩ := (hlive.kin h f hlists hf).1 p hp
    obtain ⟨g, hg, -⟩ := hlive.flows m hm p hmem
    exact absurd ((hpast p hp).find?_eq_none.symm.trans hg) (by simp)
  | step hf hp _ ih =>
    obtain ⟨stop, hl⟩ := hlodges hlists hf
    obtain ⟨stops, ht⟩ := ih ((hlive.kin _ _ hlists hf).1 _ hp)
    exact ⟨_, .step hl hp ht⟩

/-- **In every network that can arise, each flow at a node came by some way.** -/
theorem Arises.travels (ha : Arises net) (hn : n ∈ net.nodes) (hh : h ∈ n.flows) :
    ∃ stops, net.Travels h stops := by
  have hkin := ha.attained.orderly.kin
  have hroster : net.roster n.key = n.flows :=
    tied_of_nodeAt? (nodeAt?_of_mem ha.attained.watched.nodup hn)
  obtain ⟨f, hf, hnode⟩ := hkin.holds (hroster ▸ hh)
  obtain ⟨d, hd⟩ := hkin.line h f hf
  exact ha.stands.live.travels hd ⟨n, hn, hh⟩

/-! ### Following -/

/-- **In every network that can arise, running probes have heard of the flows at their nodes.** -/
theorem Arises.minded (ha : Arises net) : net.Minded ∅ ∅ ∅ ∅ := by
  induction ha with
  | new bytes settings clock => exact minded_new bytes settings clock
  | @apply net m ha hm ih =>
    by_cases hid : net.Identifies m
    · exact informs_apply ih (.inl ha.stands.fit) m (apply_stands ha.stands hm hid).2
    · exact (apply_of_exhausted hid).1.symm ▸ ih

/-- **A running probe follows the flows at its node.** -/
theorem Arises.follows (ha : Arises net) (hn : n ∈ net.nodes) (hp : n.probe? = some p)
    (hrunning : p.isRunning = true) : p.Follows (net.wayAt n) := by
  have hM := ha.minded
  refine ⟨((hM.nodes n hn).probe p hp).toCounted, fun h c hc hpass ↦ ?_, fun h r hr ↦ ?_⟩
  · obtain ⟨hh, ⟨f, hf, hlive⟩, hchain⟩ := wayAt_eq_some.1 hc
    obtain ⟨stops, ht⟩ := ha.travels hn hh
    obtain rfl := Except.ok.inj ((ht.chainOf hM.nodup hf).symm.trans hchain)
    obtain ⟨passes, hfilter, hears⟩ :=
      hM.heard n hn p hp hrunning h hh (Set.notMem_empty h) f stops hf hlive ht
    exact hears (Except.ok.inj (hfilter.symm.trans hpass))
  · obtain ⟨as, bs, hresults, -⟩ := List.lookup_eq_some_iff.1 hr
    have hmem : (h, r) ∈ p.results := hresults ▸ List.mem_append_right as List.mem_cons_self
    obtain ⟨hh, f, s, hf, -, hs, hheaders⟩ := (ha.attained.bearsOut hn hp).noted _ hmem
    obtain ⟨stops, ht⟩ := ha.travels hn hh
    exact ⟨_,
      wayAt_eq_some.2 ⟨hh, ⟨f, hf, by simp [Flow.isAlive, hs, hheaders]⟩, ht.chainOf hM.nodup hf⟩⟩

/-- **Verdicts err on one side only.** An existential probe holds if some flow at it passes filter
and test. If a universal one holds, all flows at it that pass the filter pass the test. And the
verdict is right unless a flow was noted that does not pass the filter any more. -/
theorem Arises.verdict (ha : Arises net) (hn : n ∈ net.nodes) (hp : n.probe? = some p)
    (hrunning : p.isRunning = true) :
    (p.mode = .existential → p.Fresh (net.wayAt n) → p.holds = true) ∧
      (p.mode = .universal → p.holds = true → p.Fresh (net.wayAt n)) ∧
      ((∀ h, ¬ p.Stale (net.wayAt n) h) → (p.holds = true ↔ p.Fresh (net.wayAt n))) :=
  have hfollows := ha.follows hn hp hrunning
  ⟨hfollows.holds_of_fresh, hfollows.fresh_of_holds, hfollows.holds_iff_fresh⟩

/-! ### Restarting -/

/-- **A probe is started on the ways of the flows** that are at its node and have headers. -/
theorem lookup_liveChains {l : List (Handle × Chain)} (hl : liveChains net n.flows = .ok l)
    (h : Handle) : l.lookup h = net.wayAt n h := by
  obtain ⟨hsub, hsound, hall⟩ := of_liveChains hl
  have hfound : ∀ c, l.lookup h = some c → net.wayAt n h = some c := by
    intro c hc
    obtain ⟨as, bs, rfl, -⟩ := List.lookup_eq_some_iff.1 hc
    have hmem : (h, c) ∈ as ++ (h, c) :: bs := List.mem_append_right as List.mem_cons_self
    obtain ⟨hlive, hchain⟩ := hsound _ hmem
    exact wayAt_eq_some.2
      ⟨hsub.subset (List.mem_map_of_mem hmem), (Option.any_eq_true _ _).1 hlive, hchain⟩
  cases hc : l.lookup h with
  | some c => exact (hfound c hc).symm
  | none =>
    refine (Option.eq_none_iff_forall_ne_some.2 fun c hway ↦ ?_).symm
    obtain ⟨hh, hlive, -⟩ := wayAt_eq_some.1 hway
    obtain ⟨c', hc'⟩ := hall h hh ((Option.any_eq_true _ _).2 hlive)
    exact absurd rfl (bne_iff_ne.1 (List.lookup_eq_none_iff.1 hc _ hc'))

/-- The ways of flows are left alone by all that is quiet. -/
theorem Arises.wayAt_of_quiet (ha : Arises net) (hq : Quiet net net') (hn : n ∈ net.nodes)
    (hm : m.flows = n.flows) : net'.wayAt m = net.wayAt n := by
  have hnodup := ha.minded.nodup
  have hnodup' := hq.nodup hnodup
  funext h
  by_cases hh : h ∈ n.flows
  · obtain ⟨stops, ht⟩ := ha.travels hn hh
    obtain ⟨f, hf, -⟩ := (ha.minded.nodes n hn).roster h hh
    have ht' : net'.Travels h stops :=
      ht.of_quiet ⟨hq.layout.symm, hq.flows.symm, hq.roster.symm⟩ hnodup'
    rw [wayAt, wayAt, hm, hq.flows, ht.chainOf hnodup hf, ht'.chainOf hnodup' (hq.flows ▸ hf)]
  · rw [wayAt, wayAt, hm, if_neg fun hboth ↦ hh hboth.1, if_neg fun hboth ↦ hh hboth.1]

/-- A node that is made another probe is found as before. -/
theorem find?_setProbe {ns : List Node} {test : Node → Bool} (hn : ns.find? test = some n)
    (htest : ∀ n : Node, test { n with role := .probe q } = test n) (hkey : n.key = key) :
    (ns.map fun n ↦ if n.key == key then { n with role := .probe q } else n).find? test =
      some { n with role := .probe q } := by
  have hsame : test ∘ (fun n ↦ if n.key == key then { n with role := .probe q } else n) = test := by
    funext n
    rw [Function.comp_apply]
    split
    · exact htest n
    · rfl
  rw [List.find?_map, hsame, hn, Option.map_some, if_pos (beq_iff_eq.2 hkey)]

/-- **What restarting a probe comes to**: it forgets all flows, is started on those at its node, and
all else is left alone. -/
theorem of_restart (hl : Leads (do stopProbe n.key; startProbe n.key) net () net')
    (hn : n ∈ net.nodes) (hnodup : (net.nodes.map Node.key).Nodup) (hp : n.probe? = some p) :
    ∃ base l q ts, liveChains base n.flows = .ok l ∧ p.stop.start l = .ok (q, ts) ∧ Quiet net base ∧
      Quiet net net' ∧
      ∀ {id : NodeId}, net.node? id = some n →
        net'.node? id = some { n with role := .probe q } := by
  obtain ⟨⟨⟩, mid, hstop, hstart⟩ := hl.bind
  have hquiet := quiet_stopProbe hstop hnodup
  have hquiet' := hquiet.trans (quiet_startProbe hstart (hquiet.nodup hnodup))
  -- the node is a probe when it is stopped, and still is when it is started
  obtain ⟨n₁, hn₁, hstop⟩ := hstop.stopProbe
  obtain rfl := Option.some.inj ((nodeAt?_of_mem hnodup hn).symm.trans hn₁)
  obtain ⟨hplain, -⟩ | ⟨p₁, hp₁, rfl⟩ := hstop
  · exact absurd (hplain.symm.trans hp) (by simp)
  obtain rfl := Option.some.inj (hp.symm.trans hp₁)
  obtain ⟨n₂, hn₂, hstart⟩ := hstart.startProbe
  obtain rfl := Option.some.inj ((find?_setProbe hn₁ (by exact fun _ ↦ rfl) rfl).symm.trans hn₂)
  obtain ⟨hplain, -⟩ | ⟨p₂, l, q, ts, hp₂, hchains, hstart, rfl⟩ := hstart
  · cases hplain
  obtain rfl := Option.some.inj hp₂
  refine ⟨_, l, q, ts, hchains, hstart, hquiet.trans (quiet_begin _ _ _), hquiet',
    fun {id} hid ↦ ?_⟩
  -- the key that goes with the identifier stays, and so does the place of the node
  obtain ⟨key, hkey, hat⟩ := Option.bind_eq_some_iff.1 hid
  have hstopped := find?_setProbe (q := p.stop) hat (by exact fun _ ↦ rfl) rfl
  refine Option.bind_eq_some_iff.2 ⟨key, hkey, ?_⟩
  exact find?_setProbe (n := { n with role := .probe p.stop }) hstopped (by exact fun _ ↦ rfl) rfl

/-- **A probe that is restarted has a right verdict**, because it has noted only flows that pass the
filter. It asks what it asked before, of the same flows, and these came the same way. -/
theorem Arises.restart_exact (ha : Arises net) {u : Unit}
    (hok : (net.restartProbe id).result = .ok u) :
    ∃ n p m q, net.node? id = some n ∧ n.probe? = some p ∧
      (net.restartProbe id).network.node? id = some m ∧
      m.probe? = some q ∧ q.isRunning = true ∧ q.question = p.question ∧
      (net.restartProbe id).network.wayAt m = net.wayAt n ∧
      (q.holds = true ↔ p.Fresh (net.wayAt n)) := by
  rw [restartProbe] at hok ⊢
  cases hn : net.expect id .sourceProbe .probe with
  | error e => simp [hn, Outcome.refused] at hok
  | ok n =>
    simp only [hn] at hok ⊢
    obtain ⟨hid, htype⟩ := expect_eq_ok.1 hn
    have hmem := (of_expect hn).1
    obtain ⟨p, hp⟩ : ∃ p, n.probe? = some p := by
      cases hrole : n.role <;> simp_all [Node.type, Node.probe?]
    obtain ⟨base, l, q, ts, hchains, hstart, hbase, hquiet, hset⟩ :=
      of_restart (leads_of_carryOut hok) hmem ha.minded.nodup hp
    have hbudget := Quiet.budget net net.budget.reset
    -- the probe is started on the ways that the flows have
    have hways : (l.lookup ·) = net.wayAt n := by
      funext h
      rw [lookup_liveChains hchains, ha.wayAt_of_quiet (hbudget.trans hbase) hmem rfl]
    obtain ⟨hquestion, hfollows, hnone⟩ := Probe.follows_start hstart rfl rfl
      ((ha.minded.nodes n hmem).once.sublist (of_liveChains hchains).1)
    rw [hways] at hfollows hnone
    exact ⟨n, p, _, q, hid, hp, hset hid, rfl, Probe.isRunning_of_start hstart, hquestion,
      ha.wayAt_of_quiet (hbudget.trans hquiet) hmem rfl,
      (hfollows.holds_iff_fresh hnone).trans (Probe.fresh_congr hquestion)⟩

/-- **Restarting a probe corrects its verdict.** An existential probe that holds then has held
before, a universal one that has held before holds then, and nothing changes unless a flow was noted
that does not pass the filter any more. -/
theorem Arises.restart_corrects (ha : Arises net) {u : Unit}
    (hok : (net.restartProbe id).result = .ok u) (hn : net.node? id = some n)
    (hp : n.probe? = some p) (hrunning : p.isRunning = true) :
    ∃ m q, (net.restartProbe id).network.node? id = some m ∧ m.probe? = some q ∧
      (p.mode = .existential → q.holds = true → p.holds = true) ∧
      (p.mode = .universal → p.holds = true → q.holds = true) ∧
      ((∀ h, ¬ p.Stale (net.wayAt n) h) → q.holds = p.holds) := by
  obtain ⟨n', p', m, q, hn', hp', hm, hq, -, -, -, hright⟩ := ha.restart_exact hok
  obtain rfl := Option.some.inj (hn.symm.trans hn')
  obtain rfl := Option.some.inj (hp.symm.trans hp')
  obtain ⟨hfresh, hholds, hexact⟩ := ha.verdict (mem_of_node? hn) hp hrunning
  refine ⟨m, q, hm, hq, fun hmode hq ↦ hfresh hmode (hright.1 hq),
    fun hmode hp ↦ hright.2 (hholds hmode hp), fun hnone ↦ ?_⟩
  exact Bool.eq_iff_iff.2 (hright.trans (hexact hnone).symm)

/-- An existential probe asks for headers that start with `1`, and then a rule takes these away. -/
def outdated : Network :=
  [.addTable 1 [11, 12], .addLink ⟨1, 11⟩, .addLink ⟨12, 21⟩,
    .addRule { table := 1, index := 2, inPorts := [11], outPorts := [12], accepts := .allWild 1 },
    .addSourcePattern (.allWild 1) [1],
    .addProbe
      { mode := .existential, filter := .header (Probe.half .one),
        test := .header (Probe.half .one), ports := [21] },
    .addRule
      { table := 1, index := 1, inPorts := [11], outPorts := [],
        accepts := (Pattern.allWild 1).put 0 .one }].foldl
    (fun net m ↦ (net.apply m).network) (.new 1 .default)

/-- **A verdict can be outdated**: the probe holds, although the flow at it does not pass the filter
any more. -/
theorem holds_outdated :
    ∃ n ∈ outdated.nodes, ∃ p, n.probe? = some p ∧ outdated.Arises ∧ p.isRunning = true ∧
    p.holds = true ∧ ¬ p.Fresh (outdated.wayAt n) := by
  have harises : Arises outdated := by
    refine .apply _ (.apply _ ?_ ⟨?_, ?_⟩) trivial
    · repeat refine .apply _ ?_ trivial
      exact .new _ _
    all_goals exact ⟨Space.uniform_ofPattern _, by decide +kernel⟩
  have hverdict : ((outdated.node? 2).bind Node.probe?).map (fun p ↦ (p.isRunning, p.holds)) =
      some (true, true) := by
    decide +kernel
  have hrestart : (outdated.restartProbe 2).result = .ok () := by decide +kernel
  have hlater : (((outdated.restartProbe 2).network.node? 2).bind Node.probe?).map Probe.holds =
      some false := by
    decide +kernel
  -- the verdict that the probe has after a restart is the right one
  obtain ⟨n, p, m, q, hn, hp, hm, hq, -, -, -, hright⟩ := harises.restart_exact hrestart
  simp only [hn, hp, Option.bind_some, Option.map_some, Option.some.injEq, Prod.mk.injEq]
    at hverdict
  simp only [hm, hq, Option.bind_some, Option.map_some, Option.some.injEq] at hlater
  exact ⟨n, mem_of_node? hn, p, hp, harises, hverdict.1, hverdict.2, fun hfresh ↦
    absurd (hlater.symm.trans (hright.2 hfresh)) (by simp)⟩

end Network

end HeaderFlow
