import HeaderFlow.Proofs.Network.InfluenceLayout

/-!
# Relating a new rule

A rule that is added is related to all others of its table: one influence for each rule that it
overlaps, with the one of higher priority as the winner. Two things have to be shown of the
influences that are created. **Each of them should be there**
(`Network.outranks_of_influencesWith`), so that the layout stays in order, and **each that should be
there is among them** (`Network.exists_of_influencesWith`), so that none is missing in the end.

## What is owed

No flow is at the new rule yet, so what the rule loses concerns nobody. What it wins is taken from
flows of other rules, which have it in excess until they are refreshed: `conceded` is what they owe.
Relating a rule only makes these debts (`upheld_relate`); `takeWon`, which goes through the
influences that the rule wins, pays them (`upheld_takeWon`). In between pipes are connected, which
does not touch what is conceded (`conceded_congr`).
-/

namespace HeaderFlow

variable {L : Layout} {net net' : Network} {F F' : Arena Flow} {D C : Set Debt} {X Y : Set Handle}
  {E : NodeKey → NodeKey → Link → Prop} {R T : NodeKey → NodeKey → Prop} {k : Handle}
  {i : Influence} {n m : Core} {key : NodeKey} {I : Arena Influence}
  {lost won : NodeKey → List Handle} {port : Port} {x : Nat → Bool}

namespace Node

variable {n : Node} {c : Rule → Rule}

@[simp] theorem key_mapRule : (n.mapRule c).key = n.key := by
  cases hr : n.role <;> simp [mapRule, hr]

@[simp] theorem flows_mapRule : (n.mapRule c).flows = n.flows := by
  cases hr : n.role <;> simp [mapRule, hr]

@[simp] theorem next_mapRule : (n.mapRule c).next = n.next := by
  cases hr : n.role <;> simp [mapRule, hr]

@[simp] theorem prev_mapRule : (n.mapRule c).prev = n.prev := by
  cases hr : n.role <;> simp [mapRule, hr]

/-- What a rule lists is no part of its core: only its table, its place and what it overwrites
are. -/
theorem core_mapRule (hc : ∀ r, (c r).table = r.table ∧ (c r).index = r.index ∧
    (c r).overwrite = r.overwrite) : (n.mapRule c).core = n.core := by
  cases hr : n.role with
  | rule r => simp [mapRule, hr, core, Role.kind, hc r]
  | source => simp [mapRule, hr]
  | probe p => simp [mapRule, hr]

/-- A node whose core is that of a rule is a rule. -/
theorem exists_rule (hn : n.core.IsRule) : ∃ r, n.role = .rule r := by
  obtain ⟨table, index, w, hkind⟩ := hn
  cases hr : n.role with
  | rule r => exact ⟨r, rfl⟩
  | source => simp [core, hr, Role.kind] at hkind
  | probe p => simp [core, hr, Role.kind] at hkind

end Node

namespace Engine

/-- A change of the influences that a rule lists. -/
theorem layout_mapRule {k : Rule → Rule} (c d : List Handle → List Handle)
    (hn : net.layout.core? key = some n) (hrule : ¬ n.IsRule → c [] = [] ∧ d [] = [])
    (hk : ∀ r, k r = { r with influencedBy := c r.influencedBy, effectOn := d r.effectOn }) :
    (withNode net key (Node.mapRule k)).layout = net.layout.reorder net.influences
      (fun key' ↦ if key' = key then c (net.layout.lost key') else net.layout.lost key')
      fun key' ↦ if key' = key then d (net.layout.won key') else net.layout.won key' := by
  obtain ⟨n', hn', rfl⟩ := exists_nodeAt? hn
  have hlost : (n'.mapRule k).lost = c n'.lost ∧ (n'.mapRule k).won = d n'.won := by
    by_cases hr : n'.core.IsRule
    · obtain ⟨r, hr⟩ := Node.exists_rule hr
      simp [Node.lost, Node.won, Node.mapRule, Node.rule?, hr, hk]
    · obtain ⟨hc, hd⟩ := hrule hr
      cases hrole : n'.role with
      | rule r =>
        exact absurd ⟨r.table, r.index, r.overwrite, by simp [Node.core, Role.kind, hrole]⟩ hr
      | source => simp [Node.lost, Node.won, Node.mapRule, Node.rule?, hrole, hc, hd]
      | probe p => simp [Node.lost, Node.won, Node.mapRule, Node.rule?, hrole, hc, hd]
  rw [layout_withNode_eq fun n _ _ ↦ Node.core_mapRule fun r ↦ hk r ▸ ⟨rfl, rfl, rfl⟩,
    tied_withNode_of_eq fun n _ hkey ↦ ⟨Node.key_mapRule.trans hkey, Node.next_mapRule⟩,
    tied_withNode_of_eq fun n _ hkey ↦ ⟨Node.key_mapRule.trans hkey, Node.prev_mapRule⟩,
    tied_change (c := c) hn' (fun _ ↦ Node.key_mapRule) hlost.1,
    tied_change (c := d) hn' (fun _ ↦ Node.key_mapRule) hlost.2]
  rfl

/-- The flows at the nodes are as they were. -/
theorem roster_mapRule {k : Rule → Rule} :
    (withNode net key (Node.mapRule k)).roster = net.roster :=
  tied_withNode_of_eq fun _ _ hkey ↦ ⟨Node.key_mapRule.trans hkey, Node.flows_mapRule⟩

/-! ### A new rule

The rules of the table are taken in order of their indices. Those before the new one win against it,
and those behind it lose. -/

/-- **Storing an influence** changes the layout and nothing else. -/
theorem Leads.addInfluence (hl : Leads (addInfluence i) net () net')
    (hi : net.layout.Outranks i m n) :
    net'.layout = net.layout.rank i ∧ net'.flows = net.flows ∧
      net'.roster = net.roster := by
  obtain ⟨table, place, place', w, w', hm, hn, -⟩ := hi.order
  simp only [Engine.addInfluence, leads_network_bind, leads_update_bind, leads_alterNode_bind,
    leads_alterNode] at hl
  obtain ⟨-, -, hl⟩ := hl
  have hwinner : Layout.core? { net with influences := net.influences.insert i }.layout
      i.influencer = some m := hi.influencer
  have h₁ := layout_mapRule
    (k := fun r ↦ { r with effectOn := r.effectOn ++ [net.influences.nextHandle] })
    id (· ++ [net.influences.nextHandle]) hwinner (absurd ⟨table, place, w, hm⟩) fun _ ↦ rfl
  refine ⟨?_, by rw [hl], ?_⟩
  · rw [hl]
    refine (layout_mapRule (· ++ [net.influences.nextHandle]) id (n := n)
      (by rw [Layout.core?, h₁]; exact hi.influenced) (absurd ⟨table, place', w', hn⟩) fun _ ↦
        rfl).trans ?_
    rw [h₁]
    simp only [id_eq, ite_self]
    rfl
  · rw [hl]
    exact roster_mapRule.trans roster_mapRule

end Engine

namespace Network

variable {n : Node} {index : UInt32} {p : Pattern} {l : List (UInt32 × Node)}

/-- **What two rules share.** A pattern that is answered has exactly the headers that both accept,
and one is answered as soon as the rules share a port and a header. -/
theorem of_shared {ports : PortSet} {m : Node} {o : Option Pattern}
    (ho : shared p ports m = .ok o) :
    (∀ c, o = some c → ∃ q, m.accepts = some q ∧ ∀ x, c.Matches x ↔ p.Matches x ∧ q.Matches x) ∧
      ∀ port ∈ ports.toList, ∀ q x, m.accepts = some q → p.Matches x → q.Matches x →
        ∃ c, o = some c := by
  rw [shared] at ho
  split at ho
  · rename_i hempty
    obtain rfl := Except.ok.inj ho
    exact ⟨by simp, fun port hport ↦ absurd hport (PortSet.isEmpty_iff.1 hempty port)⟩
  · cases hq : m.accepts with
    | none =>
      simp only [hq, Except.ok.injEq] at ho
      subst ho
      simp
    | some q =>
      simp only [hq] at ho
      obtain ⟨hsome, hnone⟩ := Pattern.intersect_spec ho
      refine ⟨fun c hc ↦ ⟨q, rfl, hsome c hc⟩, ?_⟩
      rintro _ _ _ x ⟨⟩
      exact hnone x

/-- **The influences that are created**, in terms of what the rule shares with each of the others.
Either rule may be the winner, and the ports are the shared ones. -/
theorem of_influencesWith {created : List Influence}
    (hc : influencesWith n index p l = .ok created) :
    (∀ e ∈ l, ∃ o, shared p (e.2.inPorts.inter n.inPorts) e.2 = .ok o) ∧
      ∀ i, i ∈ created ↔ ∃ e ∈ l, ∃ c, shared p (e.2.inPorts.inter n.inPorts) e.2 = .ok (some c) ∧
        i = if e.1 < index then ⟨e.2.key, n.key, c, e.2.inPorts.inter n.inPorts⟩
          else ⟨n.key, e.2.key, c, e.2.inPorts.inter n.inPorts⟩ := by
  induction l generalizing created with
  | nil =>
    obtain rfl := Except.ok.inj hc
    simp
  | cons e l ih =>
    obtain ⟨i, m⟩ := e
    simp only [influencesWith, Checked.bind_eq_ok] at hc
    obtain ⟨o, ho, more, hmore, hc⟩ := hc
    obtain rfl := Except.ok.inj hc
    obtain ⟨hall, hmem⟩ := ih hmore
    refine ⟨List.forall_mem_cons.2 ⟨⟨o, ho⟩, hall⟩, fun j ↦ ?_⟩
    cases o <;> simp [ho, hmem]

/-- The other rules of a table. -/
theorem mem_others {m : Node} {table : TableId} :
    (index, m) ∈ (net.rulesAt table).filter (fun (_, m) ↦ m.key ≠ key) ↔
      m ∈ net.nodes ∧ m.key ≠ key ∧ ∃ r, m.rule? = some r ∧ r.table = table ∧ index = r.index := by
  simp only [List.mem_filter, mem_rulesAt, decide_eq_true_eq]
  tauto

/-- **Every influence that is created should be there**, and is one of the rule. -/
theorem outranks_of_influencesWith {r : Rule} {created : List Influence} {i : Influence}
    (ho : net.layout.Ordered X) (hnodup : (net.nodes.map Node.key).Nodup) (hn : n ∈ net.nodes)
    (hr : n.rule? = some r) (hp : n.accepts = some p)
    (hc : influencesWith n r.index p ((net.rulesAt r.table).filter fun (_, m) ↦ m.key ≠ n.key) =
      .ok created) (hi : i ∈ created) :
    (∃ m m', net.layout.Outranks i m m') ∧ (i.influencer = n.key ∨ i.influenced = n.key) := by
  have hcore : ∀ m ∈ net.nodes, net.layout.core? m.key = some m.core := fun m ↦
    core?_core (map_key_cores net ▸ hnodup)
  obtain ⟨⟨index, m⟩, hother, c, hshared, rfl⟩ := ((of_influencesWith hc).2 i).1 hi
  obtain ⟨hm, hne, r', hr', htable, rfl⟩ := mem_others.1 hother
  obtain ⟨q, hq, hx⟩ := (of_shared hshared).1 c rfl
  have hkn := kind_of_rule? hr
  have hkm := kind_of_rule? hr'
  rw [htable] at hkm
  split
  · rename_i hlt
    exact ⟨⟨m.core, n.core, hcore m hm, hcore n hn, ⟨_, _, _, _, _, hkm, hkn, hlt⟩,
      fun port ↦ PortSet.mem_inter, q, p, hq, hp, fun x ↦ (hx x).trans and_comm⟩, .inr rfl⟩
  · rename_i hlt
    have hplace : r.index ≠ r'.index := by
      intro he
      rw [he] at hkn
      have := ho.place n.core (List.mem_map_of_mem hn) m.core
        (List.mem_map_of_mem hm) _ _ _ _ hkn hkm
      exact hne (congrArg Core.key this).symm
    exact ⟨⟨n.core, m.core, hcore n hn, hcore m hm,
      ⟨_, _, _, _, _, hkn, hkm, UInt32.lt_of_le_of_ne (UInt32.not_lt.1 hlt) hplace⟩,
      fun port ↦ PortSet.mem_inter.trans and_comm, p, q, hp, hq, hx⟩, .inl rfl⟩

/-- **Every influence of a rule that should be there is among those that are created.** -/
theorem exists_of_influencesWith {r : Rule} {created : List Influence}
    (hnodup : (net.nodes.map Node.key).Nodup) (hn : n ∈ net.nodes) (hr : n.rule? = some r)
    (hp : n.accepts = some p)
    (hc : influencesWith n r.index p ((net.rulesAt r.table).filter fun (_, m) ↦ m.key ≠ n.key) =
      .ok created) :
    ∀ s ∈ net.nodes, ∀ t ∈ net.nodes, ∀ table place place' w w',
      s.core.kind = .rule table place w → t.core.kind = .rule table place' w' → place < place' →
      s.key = n.key ∨ t.key = n.key → ∀ port ∈ s.inPorts.toList, port ∈ t.inPorts.toList →
      ∀ p q x, s.accepts = some p → t.accepts = some q → p.Matches x → q.Matches x →
      ∃ i ∈ created, i.influencer = s.key ∧ i.influenced = t.key := by
  obtain ⟨hall, hmem⟩ := of_influencesWith hc
  intro s hs t ht table place place' w w' hks hkt hlt hkey port hps hpt a b x ha hb hax hbx
  obtain ⟨rs, hrs, rfl, rfl⟩ := rule?_of_kind hks
  obtain ⟨rt, hrt, htable, rfl⟩ := rule?_of_kind hkt
  have hne : s.key ≠ t.key := by
    intro he
    obtain rfl := Engine.eq_of_key_eq hnodup hs ht he
    obtain rfl := Option.some.inj (hrs.symm.trans hrt)
    exact UInt32.lt_irrefl _ hlt
  rcases hkey with hkey | hkey
  · obtain rfl := Engine.eq_of_key_eq hnodup hs hn hkey
    obtain rfl := Option.some.inj (hr.symm.trans hrs)
    obtain rfl := Option.some.inj (hp.symm.trans ha)
    have ht' := mem_others.2 ⟨ht, hne.symm, rt, hrt, htable, rfl⟩
    obtain ⟨o, hshared⟩ := hall _ ht'
    obtain ⟨c, rfl⟩ := (of_shared hshared).2 port (PortSet.mem_inter.2 ⟨hpt, hps⟩) b x hb hax hbx
    refine ⟨_, (hmem _).2 ⟨_, ht', c, hshared, rfl⟩, ?_⟩
    rw [if_neg (UInt32.not_lt.2 (UInt32.le_of_lt hlt))]
    exact ⟨rfl, rfl⟩
  · obtain rfl := Engine.eq_of_key_eq hnodup ht hn hkey
    obtain rfl := Option.some.inj (hr.symm.trans hrt)
    obtain rfl := Option.some.inj (hp.symm.trans hb)
    have hs' := mem_others.2 ⟨hs, hne, rs, hrs, htable.symm, rfl⟩
    obtain ⟨o, hshared⟩ := hall _ hs'
    obtain ⟨c, rfl⟩ := (of_shared hshared).2 port (PortSet.mem_inter.2 ⟨hps, hpt⟩) a x ha hbx hax
    refine ⟨_, (hmem _).2 ⟨_, hs', c, hshared, rfl⟩, ?_⟩
    rw [if_pos hlt]
    exact ⟨rfl, rfl⟩

end Network

/-- The rule is one of the two. -/
def involving (key : NodeKey) : NodeKey → NodeKey → Prop := fun m n ↦ m = key ∨ n = key

/-- What flows owe for what a rule wins. -/
def conceded (L : Layout) (F : Arena Flow) (key : NodeKey) : Set Debt :=
  {e | ∃ k ∈ L.won key, ∃ i, L.influences.find? k = some i ∧
    e ∈ Engine.dues L F i.influenced i.ports (some i.common)}

/-- What is conceded depends on nodes and influences, not on pipes. -/
theorem conceded_congr {L' : Layout} (hcores : L'.cores = L.cores)
    (hinfluences : L'.influences = L.influences) (hwon : L'.won = L.won) :
    conceded L' F key = conceded L F key := by
  have hoverwrite : L'.overwrite? = L.overwrite? := by
    funext key
    rw [Layout.overwrite?, Layout.core?, hcores]
    rfl
  simp only [conceded, Engine.dues, Engine.claim, hinfluences, hwon, hoverwrite]

namespace Engine

/-- A report changes nothing in the network. -/
theorem Leads.reportCoverage {id : NodeId} {c : Coverage}
    (hl : Leads (reportCoverage id c) net () net') : net' = net := by
  rw [Engine.reportCoverage] at hl
  rcases hl.ite with ⟨-, hl⟩ | ⟨-, hl⟩
  · rw [leads_event_bind, leads_report] at hl
    exact hl
  rcases hl.ite with ⟨-, hl⟩ | ⟨-, hl⟩
  · rw [leads_event_bind, leads_report] at hl
    exact hl
  · exact (leads_pure.1 hl).2

/-- The influences are missing, besides what `R` leaves out. -/
def unrelated (R : NodeKey → NodeKey → Prop) (is : List Influence) : NodeKey → NodeKey → Prop :=
  fun m n ↦ R m n ∨ ∃ i ∈ is, m = i.influencer ∧ n = i.influenced

/-- What is missing at a rule are the influences that are created. -/
theorem ranked_unrelated {n : Node} {r : Rule} {p : Pattern} {created : List Influence}
    (hnodup : (net.nodes.map Node.key).Nodup) (hn : n ∈ net.nodes) (hr : n.rule? = some r)
    (hp : n.accepts = some p)
    (hc : Network.influencesWith n r.index p
      ((net.rulesAt r.table).filter fun (_, m) ↦ m.key ≠ n.key) =
      .ok created) (hR : net.layout.Ranked fun m m' ↦ R m m' ∨ involving n.key m m') :
    net.layout.Ranked (unrelated R created) := by
  intro t ht s hs table place place' w w' hkt hks hlt hnot port hport hport' q p x hq hp' hqx hpx
  by_cases hinv : involving n.key s.key t.key
  · obtain ⟨t', ht', rfl⟩ := List.mem_map.1 ht
    obtain ⟨s', hs', rfl⟩ := List.mem_map.1 hs
    obtain ⟨i, hi, hsi, hti⟩ := Network.exists_of_influencesWith hnodup hn hr hp hc s' hs'
      t' ht' table place' place w' w hks hkt hlt hinv port hport' hport p q x hp' hq hpx hqx
    exact absurd (.inr ⟨i, hi, hsi.symm, hti.symm⟩) hnot
  · exact hR t ht s hs table place place' w w' hkt hks hlt
      (fun he ↦ he.elim (fun he ↦ hnot (.inl he)) hinv) port hport hport' q p x hq hp' hqx hpx

/-- One influence of a rule at which no flow is gets built. -/
theorem upheld_addInfluence {is : List Influence} (hl : Leads (addInfluence i) net () net')
    (hU : Upheld net (D ∪ conceded net.layout net.flows key) X E (unrelated R (i :: is)))
    (hi : net.layout.Outranks i m n) (hinv : i.influencer = key ∨ i.influenced = key)
    (hfree : ∀ h f, net.flows.find? h = some f → f.node ≠ key) :
    Upheld net' (D ∪ conceded net'.layout net'.flows key) X E (unrelated R is) ∧
      net'.flows = net.flows ∧ net'.layout.cores = net.layout.cores := by
  obtain ⟨hlayout, hflows, hroster⟩ := hl.addInfluence hi
  refine ⟨hU.reorder (hlayout.trans rfl) hflows hroster ?_ ?_ ?_ (hlayout ▸ hU.ordered.rank hi)
    (hlayout ▸ hU.ranked.rank hU.ordered ?_), hflows, by rw [hlayout]; rfl⟩
  · rintro e (he | ⟨k, hk, j, hj, he⟩)
    · exact .inl he
    · refine .inr ⟨k, ?_, j, ?_, ?_⟩
      · rw [hlayout]
        exact Layout.mem_won_rank.2 (.inl hk)
      · rw [hlayout]
        exact Layout.find?_rank_of_some hU.ordered.influences hj
      · rw [hlayout, hflows]
        exact he
  · intro h f x hf ht
    rw [hlayout]
    exact .inl ((Layout.taken_rank hU.ordered hi).2 (.inl ht))
  · intro h f x hf ht
    rw [hlayout] at ht
    rcases (Layout.taken_rank hU.ordered hi).1 ht with ht | ⟨hnode, hport, hx⟩
    · exact .inl ht
    · -- no flow is at the rule, so it is the other rule that loses headers
      have hkey : i.influencer = key := hinv.resolve_right fun he ↦ hfree h f hf (hnode.trans he)
      refine .inr (.inr (.inr ⟨net.influences.nextHandle, ?_, i, ?_, h, f, ?_, hnode, hport, ?_⟩))
      · rw [hlayout]
        exact Layout.mem_won_rank.2 (.inr ⟨hkey.symm, rfl⟩)
      · rw [hlayout]
        exact Layout.find?_rank_self hU.ordered.influences
      · rw [hflows]
        exact hf
      · exact .inl ⟨x, rfl, hx⟩
  · rintro m n (he | ⟨j, hj, rfl, rfl⟩)
    · exact .inl (.inl he)
    · rcases List.mem_cons.1 hj with rfl | hj
      · exact .inr ⟨rfl, rfl⟩
      · exact .inl (.inr ⟨j, hj, rfl, rfl⟩)

/-- **Relating a new rule at which nothing is yet**: none of its influences is missing, and what the
rule wins is owed. -/
theorem upheld_relate (hl : Leads (relate key) net () net')
    (hU : Upheld net D X E fun m n ↦ R m n ∨ involving key m n)
    (hn : net.layout.core? key = some n) (hrule : n.IsRule)
    (hfree : ∀ h f, net.flows.find? h = some f → f.node ≠ key) :
    Upheld net' (D ∪ conceded net'.layout net'.flows key) X E R ∧ net'.flows = net.flows ∧
      net'.layout.cores = net.layout.cores := by
  obtain ⟨s, hs, rfl⟩ := exists_nodeAt? hn
  obtain ⟨hmem, rfl⟩ := nodeAt?_eq_some hs
  obtain ⟨table, index, w, hkind⟩ := id hrule
  obtain ⟨r, hr, -⟩ := Network.rule?_of_kind hkind
  have hproper := hU.inv.layout.proper _ (Layout.mem_of_core? hn)
  rw [Core.Proper, hkind] at hproper
  obtain ⟨p, hp, -⟩ := hproper.2.2
  simp only [relate, leads_node_bind, hs, Option.some.injEq, exists_eq_left', hr,
    show s.accepts = some p from hp, leads_check_bind, leads_ask_bind,
    Network.rulesOf_eq hU.inv.layout, Except.ok.injEq, exists_eq_left'] at hl
  obtain ⟨created, hcreated, _, -, hl⟩ := hl
  obtain ⟨⟨⟩, mid, hloop, hreport⟩ := hl.bind
  obtain rfl := hreport.reportCoverage
  have hnodup := map_key_cores net ▸ hU.inv.layout.nodup
  obtain ⟨hU', hrest⟩ := hloop.forM (I := fun rest mid ↦
      Upheld mid (D ∪ conceded mid.layout mid.flows s.key) X E (unrelated R rest) ∧
        mid.flows = net.flows ∧ mid.layout.cores = net.layout.cores)
    ⟨{ hU with
      inv := hU.inv.mono fun _ ↦ .inl
      ranked := ranked_unrelated hnodup hmem hr hp hcreated hU.ranked }, rfl, rfl⟩
    fun i rest mid mid' hi hmid hstep ↦ by
    obtain ⟨⟨m, n, hi⟩, hinv⟩ :=
      Network.outranks_of_influencesWith hU.ordered hnodup hmem hr hp hcreated hi
    obtain ⟨hUmid, hflows, hcores⟩ := hmid
    obtain ⟨hU', hflows', hcores'⟩ :=
      upheld_addInfluence hstep hUmid (hi.congr hcores) hinv (hflows ▸ hfree)
    exact ⟨hU', hflows'.trans hflows, hcores'.trans hcores⟩
  refine ⟨{ hU' with ranked := hU'.ranked.mono ?_ }, hrest⟩
  rintro m n (he | ⟨i, hi, -⟩)
  · exact he
  · exact absurd hi List.not_mem_nil

/-! ### Flows that have to be refreshed

The flows at the rules that lost something are refreshed with what was taken, one influence after
the other. What the others owe has to be left alone meanwhile (`dues_stable`). -/

/-- What a flow owes it still owes once others were refreshed, as long as it is there: neither its
node nor its port is changed. -/
theorem dues_stable {ports : PortSet} {o : Option Pattern} {e : Debt} (hs : Stable F F')
    (he : e ∈ dues L F key ports o) (hlive : ∃ f, F'.find? e.flow = some f) :
    e ∈ dues L F' key ports o := by
  obtain ⟨h, f, hf, hnode, hport, hclaim⟩ := he
  obtain ⟨f', hf'⟩ := hlive
  rw [flow_of_claim hclaim] at hf'
  have hway := hs.way hf hf'
  exact ⟨h, f', hf', (Flow.node_eq hway).trans hnode, Flow.port_eq hway ▸ hport, hclaim⟩

/-- What a rule lists. -/
theorem lost_won_of_rule {n : Node} {r : Rule} (hn : net.nodeAt? key = some n)
    (hr : n.rule? = some r) :
    net.layout.lost key = r.influencedBy ∧ net.layout.won key = r.effectOn := by
  constructor
  · rw [show net.layout.lost key = n.lost from Network.tied_of_nodeAt? hn, Node.lost, hr]
    rfl
  · rw [show net.layout.won key = n.won from Network.tied_of_nodeAt? hn, Node.won, hr]
    rfl

/-- Sources and probes list no influences. -/
theorem lost_won_of_plain {n : Node} (hn : net.nodeAt? key = some n) (hplain : n.rule? = none) :
    net.layout.lost key = [] ∧ net.layout.won key = [] := by
  constructor
  · rw [show net.layout.lost key = n.lost from Network.tied_of_nodeAt? hn, Node.lost, hplain]
    rfl
  · rw [show net.layout.won key = n.won from Network.tied_of_nodeAt? hn, Node.won, hplain]
    rfl

/-- **Taking what a new rule wins** pays what is owed for it. -/
theorem upheld_takeWon (hl : Leads (takeWon key) net () net')
    (hU : Upheld net (D ∪ conceded net.layout net.flows key) ∅ E R) :
    Upheld net' D ∅ E R ∧ Frame 1 net net' := by
  rw [takeWon, leads_node_bind] at hl
  obtain ⟨n, hn, hl⟩ := hl
  cases hr : n.rule? with
  | none =>
    simp only [hr] at hl
    obtain ⟨-, rfl⟩ := leads_pure.1 hl
    refine ⟨{ hU with inv := hU.inv.mono ?_ }, .refl _ _⟩
    rintro e (he | ⟨k, hk, -⟩)
    · exact he
    · rw [show net'.layout.won key = n.won from Network.tied_of_nodeAt? hn, Node.won, hr] at hk
      exact absurd hk List.not_mem_nil
  | some r =>
    simp only [hr] at hl
    obtain ⟨-, hwon⟩ := lost_won_of_rule hn hr
    -- One influence after the other is paid; a debt of a flow that goes meanwhile is void.
    obtain ⟨hI, hframe⟩ := inv_forM_pay (D := D) (d := 1)
      (fun F k ↦ {e | ∃ i, net.influences.find? k = some i ∧
        e ∈ dues net.layout F i.influenced i.ports (some i.common)}) hl
      (hU.inv.mono (by
        rintro e (he | ⟨k, hk, i, hi, he⟩)
        · exact .inl he
        · exact .inr ⟨k, hwon ▸ hk, i, hi, he⟩))
      (by
        rintro _ _ _ _ hs ⟨i, hi, he⟩ hlive
        exact ⟨i, hi, dues_stable hs he hlive⟩) (by
        intro k hk mid mid' D hframe hstep hI
        have hlayout := hframe.layout
        obtain ⟨i, hi, -, hr⟩ := hU.ordered.won key k (hwon ▸ hk)
        obtain ⟨m, n, hr⟩ := hr (by simp)
        obtain ⟨table, -, place, -, w, -, hkind, -⟩ := hr.order
        have hi' : mid.influences.find? k = some i := by
          rw [show mid.influences = net.influences from congrArg Layout.influences hlayout]
          exact hi
        rw [leads_network_bind, hi'] at hstep
        refine inv_refreshFlows hstep (hI.mono ?_) (by simp) ?_
        · rintro e (he | ⟨i', hi', he⟩)
          · exact .inl he
          · obtain rfl := Option.some.inj (hi.symm.trans hi')
            exact .inr (hlayout ▸ he)
        · rintro p ⟨⟩ port hport x hx
          rw [hlayout]
          exact ⟨⟨n, hr.influenced, table, place, w, hkind⟩, k, hr.loss, i, hi, hport, hx⟩)
    exact ⟨hU.propagate hI hframe.layout, hframe⟩

end Engine

end HeaderFlow
