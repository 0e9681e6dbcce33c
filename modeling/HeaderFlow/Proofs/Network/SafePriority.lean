import HeaderFlow.Proofs.Network.SafeWiring

/-!
# Priority within tables is safe

Influences are stored between rules that are there. While a rule gives up its influences, both ends
of each of them are still there, because **influences go before nodes do**; and flows are refreshed
only when all of them are gone, so that a refresh that is broken off leaves no influence with
one end.

In between the network is not firm: some influences are listed at one end only. No visit is entered
during that time, so nothing has to be braced, and it is enough to know that nodes stay and
influences become fewer (`Recedes`).
-/

namespace HeaderFlow.Engine

open Checked (Gives gives_ok)

variable {net net' : Network} {n : Nat} {key : NodeKey} {m : Node} {r : Rule} {i : Influence}
  {k : Handle} {s t : Core}

/-! ### Storing influences -/

/-- Storing an influence is safe if both rules are there. -/
theorem safe_addInfluence (hvalid : net.influences.Valid) (hi : net.layout.Outranks i s t)
    (hbytes : i.common.bytes = n) : Safe n (addInfluence i) net := by
  obtain ⟨s', hs', -⟩ := exists_nodeAt? hi.influencer
  obtain ⟨t', ht', -⟩ := exists_nodeAt? hi.influenced
  refine safe_of_fit ?_
  rintro rfl -
  refine safe_network_bind (fun _ _ _ ↦ rfl) ?_
  refine safe_bind (safe_updateRest (fun _ ↦ rfl) rfl rfl (fun hfit ↦ hfit.nodes)
    (fun hfit ↦ hfit.pipes) fun hfit j i' hi' ↦ ?_) fun _ mid hl ↦ ?_
  · rcases Arena.of_find?_insert hvalid hi' with ⟨-, rfl⟩ | ⟨-, hi'⟩
    · exact hbytes
    · exact hfit.influences j i' hi'
  obtain rfl := leads_update.1 hl
  refine safe_bind (safe_alterNode hs' (safe_updateNode fun _ _ _ hm ↦ hm.mapRule fun _ ↦ rfl))
    fun _ mid hl ↦ ?_
  obtain ⟨-, rfl⟩ := leads_alterNode.1 hl
  obtain ⟨t'', ht''⟩ := live_withNode i.influencer
    (k := Node.mapRule fun r ↦ { r with effectOn := r.effectOn ++ [net.influences.nextHandle] })
    (fun _ ↦ Node.key_mapRule) ht'
  exact safe_alterNode ht'' (safe_updateNode fun _ _ _ hm ↦ hm.mapRule fun _ ↦ rfl)

theorem safe_reportCoverage {id : NodeId} {c : Coverage} : Safe n (reportCoverage id c) net := by
  rw [reportCoverage]
  split
  · exact safe_event_bind safe_report
  · split
    · exact safe_event_bind safe_report
    · exact safe_pure

/-- **Relating a rule to the others of its table is safe.** -/
theorem safe_relate (hfirm : net.Firm) (hm : net.nodeAt? key = some m) :
    Safe n (relate key) net := by
  refine safe_of_fit ?_
  rintro rfl hfit
  obtain ⟨hmem, hkey⟩ := nodeAt?_eq_some hm
  have hmfit := hfit.nodes m hmem
  refine safe_node_bind hm ?_
  cases hr : m.rule? with
  | none => exact safe_pure
  | some r =>
    cases hp : m.accepts with
    | none => exact safe_pure
    | some p =>
      have hrulesOf : Gives (net.rulesOf r.table) (· = net.rulesAt r.table) :=
        ⟨_, Network.rulesOf_eq hfirm.inv.layout r.table, rfl⟩
      refine safe_ask_bind (fun _ _ _ ↦ rfl) hrulesOf ?_
      rintro _ - rfl
      have hothers : ∀ P, ∀ e ∈ (net.rulesAt r.table).filter P, e.2.Fit net.bytes := fun _ e he ↦
        Network.fit_rulesAt hfit e (List.mem_filter.1 he).1
      refine safe_check_bind (Network.gives_influencesWith (hmfit.accepts p hp) (hothers _))
        fun created hcreated hbytes ↦ ?_
      refine safe_ask_bind (fun _ _ _ ↦ rfl) (Network.gives_coverageAbove hmfit (hothers _))
        fun found _ _ ↦ ?_
      refine safe_bind (safe_forM (I := fun _ mid ↦ mid.influences.Valid ∧
        mid.layout.cores = net.layout.cores) ⟨hfirm.ordered.influences, rfl⟩ ?_) fun _ _ _ ↦
          safe_reportCoverage
      rintro i - mid hi ⟨hvalid, hcores⟩
      obtain ⟨⟨s, t, hout⟩, -⟩ := Network.outranks_of_influencesWith hfirm.ordered
        (map_key_cores net ▸ hfirm.inv.layout.nodup) hmem hr hp (hkey ▸ hcreated) hi
      have hout := hout.congr hcores
      refine ⟨safe_addInfluence hvalid hout (hbytes i hi), fun mid' hl ↦ ?_⟩
      obtain ⟨hlayout, -, -⟩ := hl.addInfluence hout
      refine ⟨?_, (congrArg Layout.cores hlayout).trans hcores⟩
      have hinfluences : mid'.influences = mid.influences.insert i :=
        congrArg Layout.influences hlayout
      exact hinfluences ▸ Arena.valid_insert hvalid

/-- **Taking what a new rule wins is safe.** -/
theorem safe_takeWon (hfirm : net.Firm) (hm : net.nodeAt? key = some m) :
    Safe n (takeWon key) net := by
  refine safe_node_bind hm ?_
  cases hr : m.rule? with
  | none => exact safe_pure
  | some r =>
    obtain ⟨-, hwon⟩ := lost_won_of_rule hm hr
    refine safe_forM (I := fun _ mid ↦ mid.Firm ∧ mid.layout = net.layout) ⟨hfirm, rfl⟩ ?_
    rintro k - mid hk ⟨hmid, hlayout⟩
    rw [← hwon, ← hlayout] at hk
    obtain ⟨i, hi, -, hranks⟩ := hmid.ordered.won key k hk
    obtain ⟨s, t, hranks⟩ := hranks (by simp)
    obtain ⟨table, -, place, -, w, -, hkind, -⟩ := hranks.order
    have hi : mid.influences.find? k = some i := hi
    have htaken : ∀ port ∈ i.ports.toList, ∀ x, i.common.Matches x →
        mid.layout.Taken i.influenced port x := fun port hport x hx ↦
      ⟨⟨t, hranks.influenced, table, place, w, hkind⟩, k, hranks.loss, i, hi, hport, hx⟩
    obtain ⟨t', ht', -⟩ := exists_nodeAt? hranks.influenced
    refine ⟨safe_network_bind (fun _ _ _ ↦ rfl) ?_, fun mid' hl ↦ ?_⟩
    · rw [hi]
      refine safe_of_fit ?_
      rintro rfl hfit
      refine safe_refreshFlows hmid ht' (by simp) ?_
      rintro _ ⟨⟩
      exact ⟨hfit.influences k i hi, htaken⟩
    · rw [leads_network_bind, hi] at hl
      obtain ⟨hI, hframe⟩ := inv_refreshFlows (D := Set.univ) hl
        (hmid.inv.mono fun _ _ ↦ .inl trivial) (by simp) (by
          rintro _ ⟨⟩
          exact htaken)
      exact ⟨hmid.propagate hI hframe.layout, hframe.layout.trans hlayout⟩

/-! ### Removing influences -/

/-- Nodes stay, and influences are at most fewer. -/
structure Recedes (net net' : Network) : Prop where
  nodes : ∀ key m, net.nodeAt? key = some m → ∃ m', net'.nodeAt? key = some m'
  influences : ∀ k i, net'.influences.find? k = some i → net.influences.find? k = some i

/-- Receding twice is receding. -/
theorem Recedes.trans {net'' : Network} (h₁ : Recedes net net') (h₂ : Recedes net' net'') :
    Recedes net net'' := by
  refine ⟨fun key m hm ↦ ?_, fun k i hi ↦ h₁.influences k i (h₂.influences k i hi)⟩
  obtain ⟨m', hm'⟩ := h₁.nodes key m hm
  exact h₂.nodes key m' hm'

/-- A rule may list other influences. -/
theorem recedes_mapRule {c : Rule → Rule} : Recedes net (withNode net key (Node.mapRule c)) :=
  ⟨fun _ _ hm ↦ live_withNode _ (fun _ ↦ Node.key_mapRule) hm, fun _ _ hi ↦ hi⟩

theorem recedes_erase : Recedes net { net with influences := net.influences.erase k } :=
  ⟨fun _ m hm ↦ ⟨m, hm⟩, fun j i hi ↦ ((Arena.lacks_erase j i).1 hi).2⟩

theorem safe_removeInfluence : Safe n (removeInfluence k) net := by
  refine safe_network_bind (fun _ _ _ ↦ rfl) ?_
  refine safe_bind (safe_updateRest (fun _ ↦ rfl) rfl rfl (fun hfit ↦ hfit.nodes)
    (fun hfit ↦ hfit.pipes) fun hfit j i hi ↦ ?_) fun _ _ _ ↦ safe_pure
  exact hfit.influences j i ((Arena.lacks_erase j i).1 hi).2

/-- Dropping an influence in which a rule loses is safe if its winner is there. -/
theorem safe_dropLost
    (hends : ∀ i, net.influences.find? k = some i → ∃ m, net.nodeAt? i.influencer = some m) :
    Safe n (dropLost k) net := by
  refine safe_bind safe_removeInfluence fun o mid hl ↦ ?_
  obtain ⟨rfl, rfl⟩ := hl.removeInfluence
  cases hi : net.influences.find? k with
  | none => exact safe_pure
  | some i =>
    obtain ⟨m, hm⟩ := hends i hi
    exact safe_node_bind hm (safe_updateNode fun _ _ _ hm ↦ hm.mapRule fun _ ↦ rfl)

/-- A dropped influence is gone, and nothing else. -/
theorem Leads.recedes_dropLost (hl : Leads (Engine.dropLost k) net () net') : Recedes net net' := by
  obtain ⟨o, mid, hremove, hl⟩ := Leads.bind hl
  obtain ⟨rfl, rfl⟩ := hremove.removeInfluence
  cases hi : net.influences.find? k with
  | none =>
    simp only [hi] at hl
    exact (leads_pure.1 hl).2 ▸ recedes_erase
  | some i =>
    simp only [hi, leads_node_bind, leads_updateNode] at hl
    obtain ⟨_, -, rfl⟩ := hl
    exact recedes_erase.trans recedes_mapRule

/-- Dropping the influences in which a rule wins is safe if all the losers are there. -/
theorem safe_dropWon {ks : List Handle}
    (hends : ∀ k ∈ ks, ∀ i, net.influences.find? k = some i →
      ∃ m, net.nodeAt? i.influenced = some m) :
    Safe n (dropWon ks) net := by
  induction ks generalizing net with
  | nil => exact safe_pure
  | cons k ks ih =>
    have hrest : ∀ mid, Recedes net mid → Safe n (dropWon ks) mid := by
      intro mid hrecedes
      refine ih fun j hj i hi ↦ ?_
      obtain ⟨m, hm⟩ := hends j (List.mem_cons_of_mem _ hj) i (hrecedes.influences j i hi)
      exact hrecedes.nodes _ m hm
    refine safe_bind safe_removeInfluence fun o mid hl ↦ ?_
    obtain ⟨rfl, rfl⟩ := hl.removeInfluence
    cases hi : net.influences.find? k with
    | none => exact hrest _ recedes_erase
    | some i =>
      obtain ⟨m, hm⟩ := hends k List.mem_cons_self i hi
      refine safe_node_bind hm ?_
      refine safe_bind (safe_updateNode fun _ _ _ hm ↦ hm.mapRule fun _ ↦ rfl) fun _ mid hl ↦ ?_
      obtain rfl := leads_updateNode.1 hl
      exact safe_bind (hrest _ (recedes_erase.trans recedes_mapRule)) fun _ _ _ ↦ safe_pure

/-- **Removing all influences of a rule without flows is safe.** -/
theorem safe_release (hfirm : net.Firm) (hm : net.nodeAt? key = some m)
    (hfree : ∀ h f, net.flows.find? h = some f → f.node ≠ key) : Safe n (release key) net := by
  refine safe_node_bind hm ?_
  cases hr : m.rule? with
  | none => exact safe_pure
  | some r =>
    obtain ⟨hlost, hwon⟩ := lost_won_of_rule hm hr
    -- The rules at the other ends are read off before anything is removed. They stay while
    -- influences go.
    have hlosers : ∀ k ∈ r.influencedBy, ∀ i, net.influences.find? k = some i →
        ∃ m, net.nodeAt? i.influencer = some m := by
      intro k hk i hi
      obtain ⟨i', hi', -, hranks⟩ := hfirm.ordered.lost key k (hlost ▸ hk)
      obtain rfl := Option.some.inj (hi.symm.trans hi')
      obtain ⟨s, t, hranks⟩ := hranks (by simp)
      obtain ⟨m', hm', -⟩ := exists_nodeAt? hranks.influencer
      exact ⟨m', hm'⟩
    have hwinners : ∀ k ∈ r.effectOn, ∀ i, net.influences.find? k = some i →
        ∃ m, net.nodeAt? i.influenced = some m := by
      intro k hk i hi
      obtain ⟨i', hi', -, hranks⟩ := hfirm.ordered.won key k (hwon ▸ hk)
      obtain rfl := Option.some.inj (hi.symm.trans hi')
      obtain ⟨s, t, hranks⟩ := hranks (by simp)
      obtain ⟨m', hm', -⟩ := exists_nodeAt? hranks.influenced
      exact ⟨m', hm'⟩
    refine safe_bind (safe_updateNode fun _ _ _ hm ↦ hm.mapRule fun _ ↦ rfl) fun _ mid hl ↦ ?_
    obtain rfl := leads_updateNode.1 hl
    refine safe_bind (safe_forM (I := fun _ mid ↦ Recedes net mid) recedes_mapRule
      fun k _ mid hk hrecedes ↦ ⟨safe_dropLost fun i hi ↦ ?_, fun _ hl ↦
        hrecedes.trans hl.recedes_dropLost⟩) fun _ net₂ hlosses ↦ ?_
    · obtain ⟨m', hm'⟩ := hlosers k hk i (hrecedes.influences k i hi)
      exact hrecedes.nodes _ m' hm'
    have hrecedes₂ : Recedes net net₂ := hlosses.forM (I := fun _ mid ↦ Recedes net mid)
      recedes_mapRule fun _ _ _ _ _ hI hstep ↦ hI.trans hstep.recedes_dropLost
    refine safe_bind (safe_dropWon fun k hk i hi ↦ ?_) fun given net₃ hwins ↦ ?_
    · obtain ⟨m', hm'⟩ := hwinners k hk i (hrecedes₂.influences k i hi)
      exact hrecedes₂.nodes _ m' hm'
    -- From here on headers flow, so the network has to be firm at each step.
    obtain ⟨hU, -, -, -, -, hrules⟩ := upheld_surrender hm hr hlosses hwins
      hfirm.lax (fun _ _ _ ↦ trivial) hfree
    refine safe_forM (I := fun _ mid ↦ mid.Firm ∧ mid.layout = net₃.layout) ⟨hU.firm, rfl⟩ ?_
    rintro i - mid hi ⟨hmid, hlayout⟩
    have hrule := hrules i hi
    rw [← hlayout] at hrule
    obtain ⟨m', hm', -⟩ := exists_nodeAt? hrule.choose_spec.1
    refine ⟨safe_refreshFlows hmid hm' (fun _ ↦ hrule) (by simp), fun mid' hl ↦ ?_⟩
    obtain ⟨hI, hframe⟩ := inv_refreshFlows (D := Set.univ) hl
      (hmid.inv.mono fun _ _ ↦ .inl trivial) (fun _ ↦ hrule) (by simp)
    exact ⟨hmid.propagate hI hframe.layout, hframe.layout.trans hlayout⟩

end HeaderFlow.Engine
