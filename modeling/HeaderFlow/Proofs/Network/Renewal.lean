import HeaderFlow.Proofs.Network.ArrivalVisits

/-!
# Renewing flows

A flow that has changed is renewed, and the flows that came from it are renewed in turn or dropped.
**All of this happens below the flow**: it stays, with everything above it, and each of its children
has one flow more above it. So `Renews` follows by recursion on the room, as `Welcomes` does, and a
change that sets off any number of visits overruns the budget only under strain.

## The bound

The statements have the shape `Ends … (Cut L s) (Goes L s room d net)`. Where the computation is
broken off, the limit of nested visits is below what the places of the layout require (`Cut`), or it
was a limit of another kind. Where it comes to its end, everything above depth `d` is as it was
(`Goes`). The hypothesis `s.maxDepth ≤ room + d` ties the room that is left to the depth of the
flow: with each visit inside, the room goes down by one and the depth up by one.

That is why it matters that work on a flow leaves what is above it alone: the places on its way are
still the same when the next child is visited, so the depth that was counted is still the right one.
-/

namespace HeaderFlow

open Engine

variable {net net' : Network} {L : Layout} {s : Settings} {room : Nat} {X : Set Handle}
  {h c fwd : Handle} {f g : Flow} {d e : Nat} {key : NodeKey} {n : Node} {r : Rule}
  {arrive : NodeKey → Handle → Engine Unit} {refresh : Handle → Option Pattern → Engine Unit}
  {loss : Option Pattern}

/-! ### Children -/

/-- The flows that came from one lie one below it, also after work on it. -/
theorem liesAt_children (hK : Kin net X) (hf : net.Holds h f) (hd : Line net.flows h d)
    (hk : Keeps (d + 1) net net') (hc : c ∈ f.children) : LiesAt net' (d + 1) c :=
  liesAt_child (hk.line hK hf hd (Nat.lt_succ_self d)) <|
    hk.traces (hK.children h f c hf hc) fun _ _ hway _ hp ↦ (Flow.parent_eq hway).trans hp

/-- A flow is renewed after what arrived there has been changed. -/
theorem goes_renewInput {input : Space} (hrefresh : Renews L s room refresh)
    (hU : Underway L s room net) (hc : net.Holds c g) (hd : Line net.flows c (d + 1))
    (hroom : s.maxDepth.toNat ≤ room + d + 1) :
    Ends (refresh c loss) (withFlow net c fun f ↦ { f with input := input }) (Cut L s) fun _ net' ↦
      Goes L s room (d + 1) net net' := by
  have hp : Prunes (d + 2) net (withFlow net c fun f ↦ { f with input := input }) :=
    prunes_withHeaders hU.kin fun _ ↦ ⟨_, _, rfl⟩
  have hU' : Underway L s room (withFlow net c fun f ↦ { f with input := input }) :=
    hU.step ⟨rfl, rfl⟩ rfl (hp.kin hU.kin)
  obtain ⟨g', hg', -⟩ := hp.holds hc hd (Nat.lt_succ_self _)
  refine (hrefresh _ c g' (d + 1) loss hU' hg' (hp.line hU.kin hc hd (Nat.lt_succ_self _))
    (by omega)).weaken fun _ _ hnext ↦ ?_
  exact ⟨hnext.underway, (hp.toKeeps.trans hnext.keeps hU.kin).mono (Nat.le_succ _)⟩

/-- **A loss is pushed down to a child**, which is renewed for it. -/
theorem goes_pushLoss {lost : Pattern} (hrefresh : Renews L s room refresh)
    (hU : Underway L s room net) (hc : LiesAt net (d + 1) c)
    (hroom : s.maxDepth.toNat ≤ room + d + 1) :
    Ends (pushLoss refresh lost c) net (Cut L s) fun _ net' ↦ Goes L s room (d + 1) net net' := by
  have hstop : Ends (pure () : Engine Unit) net (Cut L s) fun _ net' ↦
      Goes L s room (d + 1) net net' := ends_pure.2 (.refl hU)
  rw [pushLoss, ends_flow?_bind]
  split
  · rename_i g hg
    obtain ⟨hg, hd⟩ := hc g hg
    split
    · rw [ends_pipe?_bind]
      split
      · rw [ends_check_bind]
        intro o _
        split
        · rw [ends_check_bind]
          intro input _
          rw [ends_updateFlow_bind]
          exact goes_renewInput hrefresh hU hg hd hroom
        · exact hstop
      · exact hstop
    · exact hstop
  · exact hstop

/-- A child that gets nothing any more goes, with what came from it. -/
theorem goes_removeFlow {used : Option Handle} (hU : Underway L s room net)
    (hc : LiesAt net (d + 1) c) :
    Ends (do removeFlow c; return used) net (Cut L s) fun _ net' ↦
      Goes L s room (d + 1) net net' := by
  refine Ends.steady_bind (tame_removeFlow c).steady fun _ mid hl ↦ ends_pure.2 ?_
  have hp := (hl.prunes_removeFlow hU.layout_wellFormed hU.kin hc).1
  exact ⟨hU.prunes (tame_removeFlow c).steady hl hp, hp.toKeeps⟩

/-- **A flow that came from one that has changed is renewed or dropped.** -/
theorem goes_renewChild {processed : Space} (hrefresh : Renews L s room refresh)
    (hU : Underway L s room net) (hc : LiesAt net (d + 1) c)
    (hroom : s.maxDepth.toNat ≤ room + d + 1) :
    Ends (renewChild refresh processed c) net (Cut L s) fun _ net' ↦
      Goes L s room (d + 1) net net' := by
  rw [renewChild, ends_flow?_bind]
  split
  · rename_i g hg
    obtain ⟨hg, hd⟩ := hc g hg
    split
    · rw [ends_pipe?_bind]
      split
      · rw [ends_check_bind]
        intro out _
        split
        · exact goes_removeFlow hU hc
        · rw [ends_updateFlow_bind]
          exact (goes_renewInput hrefresh hU hg hd hroom).bind fun _ _ hnext ↦ ends_pure.2 hnext
      · exact goes_removeFlow hU hc
    · exact ends_pure.2 (.refl hU)
  · exact ends_pure.2 (.refl hU)

/-- **The children are renewed one after the other**, each of them below the flow. -/
theorem goes_renewChildren {processed : Space} {cs : List Handle}
    (hrefresh : Renews L s room refresh) (hU : Underway L s room net)
    (hcs : ∀ mid, Keeps (d + 1) net mid → ∀ c ∈ cs, LiesAt mid (d + 1) c)
    (hroom : s.maxDepth.toNat ≤ room + d + 1) :
    Ends (renewChildren refresh processed cs) net (Cut L s) fun _ net' ↦
      Goes L s room (d + 1) net net' := by
  induction cs generalizing net with
  | nil => exact ends_pure.2 (.refl hU)
  | cons c cs ih =>
    refine (goes_renewChild hrefresh hU (hcs net (.refl _ net) c List.mem_cons_self) hroom).bind
      fun used mid hmid ↦ ?_
    have hrest : ∀ mid', Keeps (d + 1) mid mid' → ∀ c ∈ cs, LiesAt mid' (d + 1) c :=
      fun mid' hmid' c hc ↦ hcs mid' (hmid.keeps.trans hmid' hU.kin) c (List.mem_cons_of_mem _ hc)
    exact (ih hmid.underway hrest).bind fun _ _ hnext ↦ ends_pure.2 (hmid.trans hU hnext)

/-- **The flows that came from one are renewed, and pipes that none of them came by are tried.** -/
theorem goes_renewAll {processed : Space} (harrive : Welcomes L s room arrive)
    (hrefresh : Renews L s room refresh) (hU : Underway L s room net) (ho : Onward net h d f)
    (hroom : s.maxDepth.toNat ≤ room + d + 1) :
    Ends (renewAll arrive refresh h f processed) net (Cut L s) fun _ net' ↦
      Goes L s room (d + 1) net net' := by
  rw [renewAll]
  refine (goes_renewChildren hrefresh hU (fun mid hmid c hc ↦
    liesAt_children hU.kin ho.holds ho.line hmid hc) hroom).bind fun used mid hmid ↦ ?_
  rw [ends_node_bind]
  intro n hn
  obtain ⟨f', ho', -⟩ := ho.keeps hmid.keeps hU.kin
  refine (goes_forM_send harrive hmid.underway ho' hroom (opens_next hmid.underway hn)
    fun fwd ↦ ?_).weaken fun _ _ hnext ↦ hmid.trans hU hnext
  split
  · exact .inl ⟨f.node, .flow, rfl⟩
  · exact .inr rfl

/-! ### One flow -/

/-- A change is passed on to what came from the flow, as a loss or by renewing it. -/
theorem goes_passOn (harrive : Welcomes L s room arrive) (hrefresh : Renews L s room refresh)
    (hU : Underway L s room net) (ho : Onward net h d f) (hroom : s.maxDepth.toNat ≤ room + d + 1) :
    Ends (passOn arrive refresh h loss) net (Cut L s) fun _ net' ↦
      Goes L s room (d + 1) net net' := by
  rw [passOn, ends_flow_bind]
  intro f' hf'
  obtain rfl := Option.some.inj (ho.holds.1.symm.trans hf')
  split
  · exact goes_forM hU fun c hc mid hmid ↦ goes_pushLoss hrefresh hmid.underway
      (liesAt_children hU.kin ho.holds ho.line hmid.keeps hc) hroom
  · split
    · exact goes_renewAll harrive hrefresh hU ho hroom
    · exact ends_pure.2 (.refl hU)

/-- Where nothing is left, what came from the flow is dropped, without a visit. -/
theorem tame_goOn_dead {v : Bool} (h : Handle) : Tame v (do
    dropBelow h
    alterFlow h fun f ↦ { f with processed := none }) :=
  (tame_dropBelow h).bind fun _ ↦ tame_alterFlow _ _

/-- A flow that goes on passes the change on, and a flow without headers drops what came from it. -/
theorem goes_goOn {alive : Bool} (harrive : Welcomes L s room arrive)
    (hrefresh : Renews L s room refresh) (hU : Underway L s room net) (ho : Onward net h d f)
    (hroom : s.maxDepth.toNat ≤ room + d + 1) :
    Ends (goOn arrive refresh h loss alive) net (Cut L s) fun _ net' ↦
      Goes L s room (d + 1) net net' := by
  rw [goOn]
  split
  · exact goes_passOn harrive hrefresh hU ho hroom
  · refine goes_steady hU (tame_goOn_dead h).steady fun net' hl ↦ ?_
    obtain ⟨⟨⟩, mid, hdrop, halter⟩ := hl.bind
    have hp := hdrop.prunes_dropBelow hU.layout_wellFormed hU.kin ho.holds ho.line
    obtain ⟨-, rfl⟩ := leads_alterFlow.1 halter
    exact hp.trans (prunes_withHeaders (hp.kin hU.kin) fun _ ↦ ⟨_, _, rfl⟩) hU.kin

/-- A steady computation at a flow that goes on, and then what to do with the outcome. -/
theorem goes_goOn_of_steady {x : Engine Bool} (harrive : Welcomes L s room arrive)
    (hrefresh : Renews L s room refresh) (hU : Underway L s room net) (ho : Onward net h d f)
    (hroom : s.maxDepth.toNat ≤ room + d + 1) (hs : Steady x)
    (hx : ∀ b net', Leads x net b net' → Prunes (d + 1) net net') :
    Ends (do goOn arrive refresh h loss (← x)) net (Cut L s) fun _ net' ↦
      Goes L s room (d + 1) net net' := by
  refine Ends.steady_bind hs fun alive mid hl ↦ ?_
  have hp := hx alive mid hl
  have hmid : Goes L s room (d + 1) net mid := ⟨hU.prunes hs hl hp, hp.toKeeps⟩
  obtain ⟨f', ho', -⟩ := ho.keeps hp.toKeeps hU.kin
  exact (goes_goOn harrive hrefresh hmid.underway ho' hroom).weaken fun _ _ hnext ↦
    hmid.trans hU hnext

/-- **At a rule** a flow is computed anew and goes on from there. -/
theorem goes_reconsiderAtRule (harrive : Welcomes L s room arrive)
    (hrefresh : Renews L s room refresh) (hU : Underway L s room net) (hf : net.Holds h f)
    (hd : Line net.flows h d) (hforwards : net.layout.Forwards f.node)
    (hroom : s.maxDepth.toNat ≤ room + d + 1) :
    Ends (reconsiderAtRule arrive refresh h f r loss) net (Cut L s) fun _ net' ↦
      Goes L s room (d + 1) net net' := by
  rw [reconsiderAtRule]
  split
  · exact ends_pure.2 (.refl hU)
  · rename_i hloop
    have ho : Onward net h d f := ⟨hf, by simpa using hloop, hforwards, hd⟩
    split
    · exact goes_goOn_of_steady harrive hrefresh hU ho hroom (tame_recompute _ _).steady
        fun _ _ hl ↦ hl.prunes_recompute hU.kin
    · split
      · exact goes_goOn_of_steady harrive hrefresh hU ho hroom (tame_lose _ _ _).steady
          fun _ _ hl ↦ hl.prunes_lose hU.kin
      · exact ends_pure.2 (.refl hU)

/-- **Working on a flow that has changed spares the flow and everything above it.** -/
theorem goes_reconsider (harrive : Welcomes L s room arrive) (hrefresh : Renews L s room refresh)
    (hU : Underway L s room net) (hf : net.Holds h f) (hd : Line net.flows h d)
    (hroom : s.maxDepth.toNat ≤ room + d + 1) :
    Ends (reconsider arrive refresh h loss) net (Cut L s) fun _ net' ↦
      Goes L s room (d + 1) net net' := by
  rw [reconsider, ends_flow?_bind, hf.1]
  simp only [ends_node_bind]
  intro n hn
  cases hrole : n.role with
  | rule r =>
    refine goes_reconsiderAtRule harrive hrefresh hU hf hd (fun m hm ↦ ?_) hroom
    rw [Layout.core?_of_nodeAt? hn] at hm
    obtain rfl := Option.some.inj hm
    simp [Node.core, Role.kind, hrole]
  | probe q =>
    refine goes_steady hU ((tame_reconsiderAtProbe _ _ _).bind fun _ ↦ tame_notify _ _ _).steady
      fun net' hl ↦ ?_
    obtain ⟨⟨⟩, mid, hl, hnotify⟩ := hl.bind
    have hp : Prunes (d + 1) net mid := hl.prunes_reconsiderAtProbe hU.kin
    exact hp.trans (hnotify.prunes_notify (hp.layout ▸ hU.layout_wellFormed) (hp.kin hU.kin)) hU.kin
  | source => exact ends_pure.2 (.refl hU)

/-- **Renewing overruns the budget only under strain**, where the room is enough for what is not
above the flow. -/
theorem refreshWithin_renews : ∀ room, Renews L s room (refreshWithin room)
  | 0, net, h, f, d, loss, hU, hf, hd, hroom => by
    have hle := hU.kin.line_le_succ hf hd
    rw [hU.layout] at hle
    exact ends_noRoom hU (.inr (by omega))
  | room + 1, net, h, f, d, loss, hU, hf, hd, hroom => goes_visit hU fun hin ↦
    goes_reconsider (arriveWithin_welcomes room) (refreshWithin_renews room) hin hf hd (by omega)

/-! ### Entry points

A change starts with all the room that the settings allow. -/

/-- The limit of nested visits is room enough at the top. -/
theorem arrive_welcomes : Welcomes L s s.maxDepth.toNat Engine.arrive :=
  fun net c g d hU hc hroom ↦ by
    rw [Engine.arrive, ends_room_bind, hU.maxDepth]
    exact arriveWithin_welcomes _ net c g d hU hc hroom

/-- The limit of nested visits is room enough at the top. -/
theorem refresh_renews : Renews L s s.maxDepth.toNat Engine.refresh :=
  fun net h f d loss hU hf hd hroom ↦ by
    rw [Engine.refresh, ends_room_bind, hU.maxDepth]
    exact refreshWithin_renews _ net h f d loss hU hf hd hroom

/-- The flow of a source arrives at the source itself. -/
theorem goes_arriveRoot (hU : Underway L s s.maxDepth.toNat net) (ho : Onward net h d f)
    (hn : net.nodeAt? key = some n) (hsource : n.role = .source) :
    Ends (Engine.arrive key h) net (Cut L s) fun _ net' ↦
      Goes L s s.maxDepth.toNat (d + 1) net net' := by
  rw [Engine.arrive, ends_room_bind, hU.maxDepth]
  cases hroom : s.maxDepth.toNat with
  | zero => exact ends_noRoom hU (.inr (by omega))
  | succ room =>
    refine goes_visit (hroom ▸ hU) fun hin ↦ ?_
    have hn' : Network.nodeAt? { net with budget := net.budget.count } key = some n := hn
    rw [takeIn, ends_node_bind]
    intro n' hat
    obtain rfl := Option.some.inj (hn'.symm.trans hat)
    rw [hsource]
    exact goes_sendAll (arriveWithin_welcomes room) hin
      ⟨ho.holds, ho.looped, ho.forwards, ho.line⟩ (by omega)

/-- A walk over the flows of a node. -/
theorem goes_forM_flows {x : Handle → Engine Unit} (hU : Underway L s room net)
    (hn : net.nodeAt? key = some n)
    (hx : ∀ h mid f, Goes L s room 0 net mid → mid.Holds h f → f.node = key →
      Ends (x h) mid (Cut L s) fun _ net' ↦ Goes L s room 0 mid net')
    (hdead : ∀ h mid, Goes L s room 0 net mid → mid.flows.find? h = none →
      Ends (x h) mid (Cut L s) fun _ net' ↦ Goes L s room 0 mid net') :
    Ends (n.flows.forM x) net (Cut L s) fun _ net' ↦ Goes L s room 0 net net' := by
  refine goes_forM hU fun h hh mid hmid ↦ ?_
  have hlisted : h ∈ net.roster key := by
    rwa [Network.roster, Network.tied_of_nodeAt? hn]
  obtain ⟨f, hf, hnode⟩ := hU.kin.holds hlisted
  rcases hmid.keeps.kept h f hf with hpast | ⟨f', hf', hway, -⟩
  · exact hdead h mid hmid hpast.find?_eq_none
  · exact hx h mid f' hmid hf' ((Flow.node_eq hway).trans hnode)

/-- **Sending the flows of a node down a pipe.** -/
theorem goes_sendFlows (hU : Underway L s s.maxDepth.toNat net) (hfwd : L.Opens fwd)
    (hforwards : L.Forwards key) :
    Ends (sendFlows key fwd) net (Cut L s) fun _ net' ↦
      Goes L s s.maxDepth.toNat 0 net net' := by
  rw [sendFlows, ends_node_bind]
  intro n hn
  refine goes_forM_flows hU hn (fun h mid f hmid hf hnode ↦ ?_) fun h mid hmid hdead ↦ ?_
  · rw [ends_flow?_bind, hf.1]
    split
    · rename_i hgo
      obtain ⟨d, hd⟩ := hmid.underway.kin.line h f hf
      have hgo : f.looped = false := by
        simp only [Option.any_some, Bool.and_eq_true, Bool.not_eq_true'] at hgo
        exact hgo.1
      refine (goes_send arrive_welcomes hmid.underway ⟨hf, hgo, ?_, hd⟩ (by omega) hfwd).weaken
        fun _ _ hnext ↦ hnext.mono (Nat.zero_le _)
      rw [hmid.underway.layout, hnode]
      exact hforwards
    · exact ends_pure.2 (.refl hmid.underway)
  · rw [ends_flow?_bind, hdead]
    exact ends_pure.2 (.refl hmid.underway)

/-- **Pulling flows to a node.** -/
theorem goes_pull (hU : Underway L s s.maxDepth.toNat net) :
    Ends (pull key) net (Cut L s) fun _ net' ↦ Goes L s s.maxDepth.toNat 0 net net' := by
  rw [pull, ends_node_bind]
  intro n hn
  refine goes_forM hU fun back hback mid hmid ↦ ?_
  have hprev : back ∈ L.prev key := by
    rw [← hU.layout]
    change back ∈ net.tied Node.prev key
    rwa [Network.tied_of_nodeAt? hn]
  obtain ⟨fwd, a, b, p, q, hj, -⟩ := hU.wellFormed.prev key back hprev
  have hj' : mid.layout.Joins fwd back a b p q := hmid.underway.layout ▸ hj
  have hrear : mid.pipes.find? back = some b := hj'.rear
  rw [ends_pipe?_bind, hrear]
  simp only [ends_pipe_bind]
  intro a' ha'
  rw [hj'.obverse] at ha' ⊢
  obtain rfl := Option.some.inj (hj'.front.symm.trans ha')
  refine goes_sendFlows hmid.underway (fun side hside ↦ ?_) fun m hm ↦ ?_
  · obtain rfl := Option.some.inj (hj.front.symm.trans hside)
    exact ⟨back, b, p, q, hj⟩
  · obtain rfl := Option.some.inj (hj.sender.symm.trans hm)
    exact hj.kind_ne_probe hU.wellFormed

/-- **Refreshing the flows of a node.** -/
theorem goes_refreshFlows {ports : PortSet} (hU : Underway L s s.maxDepth.toNat net) :
    Ends (refreshFlows key ports loss) net (Cut L s) fun _ net' ↦
      Goes L s s.maxDepth.toNat 0 net net' := by
  rw [refreshFlows, ends_node_bind]
  intro n hn
  refine goes_forM_flows hU hn (fun h mid f hmid hf _ ↦ ?_) fun h mid hmid hdead ↦ ?_
  · rw [ends_flow?_bind, hf.1]
    split
    · obtain ⟨d, hd⟩ := hmid.underway.kin.line h f hf
      exact (refresh_renews mid h f d loss hmid.underway hf hd (by omega)).weaken fun _ _ hnext ↦
        hnext.mono (Nat.zero_le _)
    · exact ends_pure.2 (.refl hmid.underway)
  · rw [ends_flow?_bind, hdead]
    exact ends_pure.2 (.refl hmid.underway)

end HeaderFlow
