import HeaderFlow.Proofs.Network.Faultless
import HeaderFlow.Proofs.Network.Measured

/-!
# The catalogue of a network

Nodes have keys of their own, tables have numbers of their own, and **a rule is called by its
place**, so that an identifier in a report tells which rule is meant (`Network.Catalogued`). All
changes keep it so, also those that are refused or broken off (`Network.Arises.catalogued`).

Only few steps of a change touch the catalogue: a node comes or goes, a table comes or goes, and a
probe takes note of something. A computation made of these and of tame ones is `Engine.Neat`.

## Why this is an invariant of its own

The invariant of networks at rest says much more about nodes, but it is about changes that came to
their end. What is reported has to be told apart in every network, also after a change that stopped
in the middle, say between the entry of a new rule and its pipes. So the catalogue asks for little,
and every place at which a change may stop keeps it.

Removals are the only steps that are not followed one by one: wherever a removal stops,
`Engine.Thins` holds, which says that nodes have gone and that nothing else in the catalogue has
changed.
-/

namespace HeaderFlow

variable {α β : Type} {net net' : Network} {key : NodeKey} {p p' p'' : Progress} {x : Engine α}

namespace Network

/-- Keys, numbers of tables and identifiers of rules tell apart what they are given to. -/
structure Catalogued (net : Network) : Prop where
  nodup : (net.layout.cores.map Core.key).Nodup
  fresh : ∀ n ∈ net.layout.cores, n.key < net.nextKey
  /-- Rules are called by their places. -/
  called : ∀ n ∈ net.layout.cores, ∀ table index w, n.kind = .rule table index w →
    n.id = ruleId table index
  tables : net.tableIds.Nodup

namespace Catalogued

/-- Nodes may go. -/
theorem sublist (hc : Catalogued net) (hcores : net'.layout.cores.Sublist net.layout.cores)
    (hkey : net'.nextKey = net.nextKey) (htables : net'.tableIds = net.tableIds) :
    Catalogued net' where
  nodup := hc.nodup.sublist (hcores.map _)
  fresh n hn := hkey ▸ hc.fresh n (hcores.subset hn)
  called n hn := hc.called n (hcores.subset hn)
  tables := htables ▸ hc.tables

theorem congr (hc : Catalogued net) (hcores : net'.layout.cores = net.layout.cores)
    (hkey : net'.nextKey = net.nextKey) (htables : net'.tableIds = net.tableIds) :
    Catalogued net' :=
  hc.sublist (hcores ▸ .refl _) hkey htables

theorem mild (hm : Engine.Mild p p') (hc : Catalogued p.network) : Catalogued p'.network := by
  have hout := hm.outline
  simp only [Engine.outline, Prod.mk.injEq] at hout
  exact hc.congr hout.1 hout.2.2.1 (congrArg (fun r : Registry ↦ r.tables.map Table.id) hout.2.1)

/-- A node with the next key, called as it should be. -/
theorem append {n : Node} (hc : Catalogued net) (hkey : n.key = net.nextKey)
    (hcalled : ∀ table index w, n.core.kind = .rule table index w → n.id = ruleId table index) :
    Catalogued (net.enrol n) := by
  have hcores : (net.enrol n).layout.cores = net.layout.cores ++ [n.core] := by simp [layout, enrol]
  have htables : (net.enrol n).tableIds = net.tableIds := Registry.map_id_enrol (r := net.registry)
  refine ⟨?_, fun m hm ↦ ?_, fun m hm ↦ ?_, htables ▸ hc.tables⟩
  · rw [hcores, List.map_append, List.nodup_append]
    refine ⟨hc.nodup, List.nodup_singleton _, fun a ha b hb ↦ ?_⟩
    obtain ⟨m, hm, rfl⟩ := List.mem_map.1 ha
    obtain rfl := List.mem_singleton.1 hb
    exact fun he ↦ absurd (hc.fresh m hm) (by rw [he]; exact hkey ▸ Nat.lt_irrefl _)
  · rcases List.mem_append.1 (hcores ▸ hm) with hm | hm
    · exact Nat.lt_succ_of_lt (hc.fresh m hm)
    · obtain rfl := List.mem_singleton.1 hm
      exact Nat.lt_succ_of_le (Nat.le_of_eq hkey)
  · rcases List.mem_append.1 (hcores ▸ hm) with hm | hm
    · exact hc.called m hm
    · obtain rfl := List.mem_singleton.1 hm
      exact hcalled

end Catalogued

end Network

open Network

namespace Engine

/-! ### Nodes that go -/

/-- Nodes have gone, and otherwise nothing but flows, pipes and influences has changed. -/
structure Thins (p p' : Progress) : Prop where
  frame : frame p'.network = frame p.network
  cores : p'.network.layout.cores.Sublist p.network.layout.cores
  nextKey : p'.network.nextKey = p.network.nextKey
  tables : p'.network.tableIds = p.network.tableIds
  reports : p'.reports.filter Report.isCoverage = p.reports.filter Report.isCoverage

theorem Mild.thins (h : Mild p p') : Thins p p' :=
  ⟨h.frame, h.cores ▸ .refl _, congrArg (fun o ↦ o.2.2.1) h.outline,
    congrArg (fun o ↦ o.2.1.tables.map Table.id) h.outline, h.reports⟩

theorem Thins.trans (h : Thins p p') (h' : Thins p' p'') : Thins p p'' :=
  ⟨h'.frame.trans h.frame, h'.cores.trans h.cores, h'.nextKey.trans h.nextKey,
    h'.tables.trans h.tables, h'.reports.trans h.reports⟩

theorem Thins.nodup (h : Thins p p') (hp : (p.network.layout.cores.map Core.key).Nodup) :
    (p'.network.layout.cores.map Core.key).Nodup := hp.sublist (h.cores.map _)

theorem Thins.catalogued (h : Thins p p') (hc : Catalogued p.network) : Catalogued p'.network :=
  hc.sublist h.cores h.nextKey h.tables

theorem Tame.thins (hx : Tame true x) (hp : (p.network.layout.cores.map Core.key).Nodup) :
    Stops x p (fun _ ↦ Thins p) fun _ ↦ Thins p :=
  (hx.stops hp).mono (fun _ _ h ↦ h.thins) fun _ _ h ↦ h.thins

/-- A sequence thins out if both parts do. -/
theorem Stops.thins {k : α → Engine β} (hx : Stops x p (fun _ ↦ Thins p) fun _ ↦ Thins p)
    (hk : ∀ a p', Thins p p' → Stops (k a) p' (fun _ ↦ Thins p') fun _ ↦ Thins p') :
    Stops (x >>= k) p (fun _ ↦ Thins p) fun _ ↦ Thins p :=
  hx.bind fun a p' h ↦ (hk a p' h).mono (fun _ _ h' ↦ h.trans h') fun _ _ h' ↦ h.trans h'

theorem stops_eraseNode : Stops (eraseNode key) p (fun _ ↦ Thins p) fun _ ↦ Thins p := by
  refine Stops.node_bind (fun _ ↦ (Mild.refl p).thins) fun n _ ↦ ?_
  exact ⟨rfl, List.filter_sublist.map _, rfl, Registry.map_id_strike (r := p.network.registry), rfl⟩

/-- **Wherever the removal of a rule stops, nodes have gone at most.** -/
theorem stops_removeRuleNode (hp : (p.network.layout.cores.map Core.key).Nodup) :
    Stops (removeRuleNode key) p (fun _ ↦ Thins p) fun _ ↦ Thins p :=
  ((tame_removeFlows key).thins hp).thins fun _ _ h₁ ↦
    ((tame_disconnect key).thins (h₁.nodup hp)).thins fun _ _ h₂ ↦
      ((tame_release key).thins (h₂.nodup (h₁.nodup hp))).thins fun _ _ _ ↦ stops_eraseNode

theorem stops_removePlainNode (hp : (p.network.layout.cores.map Core.key).Nodup) :
    Stops (removePlainNode key) p (fun _ ↦ Thins p) fun _ ↦ Thins p :=
  ((tame_removeFlows key).thins hp).thins fun _ _ h₁ ↦
    ((tame_disconnect key).thins (h₁.nodup hp)).thins fun _ _ _ ↦ stops_eraseNode

theorem stops_removeRuleNodes (hp : (p.network.layout.cores.map Core.key).Nodup)
    (keys : List NodeKey) : Stops (keys.forM removeRuleNode) p (fun _ ↦ Thins p) fun _ ↦ Thins p :=
  Stops.forM (I := Thins p) (Mild.refl p).thins fun _ _ _ h ↦
    (stops_removeRuleNode (h.nodup hp)).mono (fun _ _ h' ↦ h.trans h') fun _ _ h' ↦ h.trans h'

/-! ### A new rule is related to the others -/

/-- A computation without visits is halted only by a fault. -/
theorem Steady.stops {B : Halt → Progress → Prop} {Q : α → Progress → Prop} (hx : Steady x)
    (hs : Stops x p B Q) : Stops x p (fun e p' ↦ B e p' ∧ ∃ f, e = .fault f) Q := by
  have hend := hx.run p
  simp only [Stops] at hs ⊢
  cases hrun : x p with
  | ok a p' => simpa only [hrun] using hs
  | error e p' =>
    rw [hrun] at hs hend
    cases e with
    | overrun o => exact hend.elim
    | fault f => exact ⟨hs, f, rfl⟩

/-- What is reported about a new rule. -/
def coverageReports (c : Coverage) (id : NodeId) (event : Option Event) : List Report :=
  if c.universal then [.unreachable id event] else if c.covers then
    [.shadow id c.related event] else []

theorem stops_reportCoverage {id : NodeId} {c : Coverage} :
    Stops (reportCoverage id c) p (fun _ _ ↦ False) fun _ p' ↦
      p' = { p with reports := coverageReports c id p.network.lastEvent ++ p.reports } := by
  rw [reportCoverage, coverageReports]
  split
  · exact stops_event_bind.2 rfl
  · split
    · exact stops_event_bind.2 rfl
    · exact rfl

/-- **Relating a rule reports how the others cover it**, and nothing else of this sort. -/
theorem stops_relate (hp : (p.network.layout.cores.map Core.key).Nodup) :
    Stops (relate key) p (fun _ ↦ Mild p) fun _ p' ↦ ∃ p₁ said, Mild p p₁ ∧
      p' = { p₁ with reports := said ++ p₁.reports } ∧
      ∀ m r q, p.network.nodeAt? key = some m → m.rule? = some r → m.accepts = some q →
        ∃ rules c, p.network.rulesOf r.table = .ok rules ∧
          coverageAbove m r.index (rules.filter fun e ↦ e.2.key ≠ key) p.network = .ok c ∧
          said = coverageReports c m.id p.network.lastEvent := by
  refine Stops.node_bind (fun _ ↦ .refl p) fun m hm ↦ ?_
  cases hr : m.rule? with
  | none =>
    refine ⟨p, [], .refl p, rfl, fun m' r q hm' hr' ↦ ?_⟩
    obtain rfl := Option.some.inj (hm.symm.trans hm')
    exact absurd (hr.symm.trans hr') (by simp)
  | some r =>
    cases hq : m.accepts with
    | none =>
      refine ⟨p, [], .refl p, rfl, fun m' r q hm' _ hq' ↦ ?_⟩
      obtain rfl := Option.some.inj (hm.symm.trans hm')
      exact absurd (hq.symm.trans hq') (by simp)
    | some q =>
      refine Stops.ask_bind (fun _ _ ↦ .refl p) fun rules hrules ↦
        Stops.ask_bind (fun _ _ ↦ .refl p) fun created _ ↦
          Stops.ask_bind (fun _ _ ↦ .refl p) fun c hc ↦ ?_
      refine Stops.bind ((Tame.forM (v := true) tame_addInfluence created).stops hp)
        fun _ p₁ hmild ↦ ?_
      have hevent : p₁.network.lastEvent = p.network.lastEvent :=
        congrArg (fun o ↦ o.2.2.2) hmild.outline
      refine stops_reportCoverage.mono (fun _ _ h ↦ h.elim) fun _ p' hp' ↦
        ⟨p₁, _, hmild, hevent ▸ hp', fun m' r' q' hm' hr' _ ↦ ?_⟩
      obtain rfl := Option.some.inj (hm.symm.trans hm')
      obtain rfl := Option.some.inj (hr.symm.trans hr')
      exact ⟨rules, c, hrules, hc, rfl⟩

/-! ### Neat computations -/

/-- Wherever the computation stops, the catalogue is in order if it was before. -/
def Neat (x : Engine α) : Prop := ∀ p, Catalogued p.network →
  Stops x p (fun _ p' ↦ Catalogued p'.network) fun _ p' ↦ Catalogued p'.network

theorem neat_pure {a : α} : Neat (pure a) := fun _ hc ↦ hc

theorem Neat.bind {k : α → Engine β} (hx : Neat x) (hk : ∀ a, Neat (k a)) : Neat (x >>= k) :=
  fun p hc ↦ (hx p hc).bind fun a p' hc' ↦ hk a p' hc'

theorem Tame.neat (hx : Tame true x) : Neat x := fun _ hc ↦
  (hx.stops hc.nodup).mono (fun _ _ h ↦ hc.mild h) fun _ _ h ↦ hc.mild h

theorem neat_update {f : Network → Network} (hf : ∀ net, Catalogued net → Catalogued (f net)) :
    Neat (update f) := fun p hc ↦ hf p.network hc

theorem neat_setEvent (e : Event) : Neat (setEvent e) := neat_update fun _ hc ↦ hc.congr rfl rfl rfl

/-- **A new node** is called by its place if it is a rule. -/
theorem neat_addNode {n : NodeKey → Node} (hkey : ∀ key, (n key).key = key)
    (hcalled : ∀ key table index w, (n key).core.kind = .rule table index w →
      (n key).id = ruleId table index) : Neat (addNode n) := fun p hc ↦
  hc.append (hkey _) (hcalled p.network.nextKey)

theorem neat_removeRuleNode (key : NodeKey) : Neat (removeRuleNode key) := fun _ hc ↦
  (stops_removeRuleNode hc.nodup).mono (fun _ _ h ↦ h.catalogued hc) fun _ _ h ↦ h.catalogued hc

theorem neat_removeRuleNodes (keys : List NodeKey) : Neat (keys.forM removeRuleNode) := fun _ hc ↦
  (stops_removeRuleNodes hc.nodup keys).mono (fun _ _ h ↦ h.catalogued hc) fun _ _ h ↦
    h.catalogued hc

theorem neat_removePlainNode (key : NodeKey) : Neat (removePlainNode key) := fun _ hc ↦
  (stops_removePlainNode hc.nodup).mono (fun _ _ h ↦ h.catalogued hc) fun _ _ h ↦ h.catalogued hc

theorem neat_relate (key : NodeKey) : Neat (relate key) := by
  refine fun p hc ↦ (stops_relate hc.nodup).mono (fun _ _ h ↦ hc.mild h) fun _ p' h ↦ ?_
  obtain ⟨p₁, said, hmild, rfl, -⟩ := h
  exact (hc.mild hmild).congr rfl rfl rfl

/-- What a probe takes note of is not in the catalogue. -/
theorem catalogued_setProbe {n : Node} {q q' : Probe} (hc : Catalogued net)
    (hn : net.nodeAt? key = some n) (hq : n.probe? = some q) :
    Catalogued (withNode net key fun n ↦ { n with role := .probe q' }) :=
  hc.mild (p := ⟨net, []⟩) (.setProbe hc.nodup hn hq)

theorem neat_startProbe (key : NodeKey) : Neat (startProbe key) := by
  refine fun p hc ↦ Stops.node_bind (fun _ ↦ hc) fun n hn ↦ ?_
  rw [stops_setEvent_bind]
  have hc : Catalogued { p.network with lastEvent := some ⟨.startProbe, n.id.toNat, 0⟩ } :=
    hc.congr rfl rfl rfl
  refine Stops.ask_bind (fun _ _ ↦ hc) fun flows _ ↦ ?_
  split
  · rename_i q hq
    refine Stops.ask_bind (fun _ _ ↦ hc) fun out _ ↦ ?_
    refine Tame.neat (Tame.forM (fun _ ↦ tame_event.bind fun _ ↦ tame_report rfl) out.2) _ ?_
    exact catalogued_setProbe hc hn hq
  · exact hc

theorem neat_stopProbe (key : NodeKey) : Neat (stopProbe key) := by
  refine fun p hc ↦ Stops.node_bind (fun _ ↦ hc) fun n hn ↦ ?_
  rw [stops_setEvent_bind]
  have hc : Catalogued { p.network with lastEvent := some ⟨.stopProbe, n.id.toNat, 0⟩ } :=
    hc.congr rfl rfl rfl
  split
  · rename_i q hq
    exact catalogued_setProbe hc hn hq
  · exact hc

end Engine

open Engine

namespace Network

/-! ### Each change -/

theorem catalogued_carryOut {change : Engine α} (hx : Neat change) (hc : Catalogued net) :
    Catalogued (net.carryOut change).network := by
  have hrun := hx ⟨{ net with budget := net.budget.reset }, []⟩ (hc.congr rfl rfl rfl)
  rw [carryOut]
  simp only [Stops, EStateM.run] at hrun ⊢
  cases hout : change ⟨{ net with budget := net.budget.reset }, []⟩ with
  | ok a p =>
    rw [hout] at hrun
    exact hrun
  | error e p =>
    rw [hout] at hrun
    cases e with
    | overrun o => exact hrun.congr rfl rfl rfl
    | fault f => exact hrun

theorem catalogued_addTable {id : TableId} {ports : List Port} (hc : Catalogued net) :
    Catalogued (net.addTable id ports).network := by
  rw [addTable]
  split
  · exact hc
  · split
    · exact hc
    · rename_i hnone
      refine ⟨hc.nodup, hc.fresh, hc.called, ?_⟩
      refine ((perm_insertTable ⟨id, .ofList ports, ∅⟩ net.tables).map Table.id).nodup_iff.2 ?_
      refine List.nodup_cons.2 ⟨fun hmem ↦ hnone ?_, hc.tables⟩
      obtain ⟨t, ht, hid⟩ := List.mem_map.1 hmem
      exact List.find?_isSome.2 ⟨t, ht, beq_iff_eq.2 hid⟩

theorem catalogued_removeTable {id : TableId} (hc : Catalogued net) :
    Catalogued (net.removeTable id).network := by
  rw [removeTable]
  split
  · exact hc
  · refine catalogued_carryOut ((neat_setEvent _).bind fun _ ↦ (neat_removeRuleNodes _).bind fun _ ↦
      neat_update fun net hc ↦ ⟨hc.nodup, hc.fresh, hc.called, ?_⟩) hc
    exact hc.tables.sublist (List.filter_sublist.map _)

theorem catalogued_addRule {spec : RuleSpec} (hc : Catalogued net) :
    Catalogued (net.addRule spec).network := by
  rw [addRule]
  split
  · exact hc
  · rename_i n hn
    obtain ⟨t, w, -, rfl⟩ := of_ruleNode hn
    refine catalogued_carryOut ((neat_setEvent _).bind fun _ ↦ (neat_removeRuleNodes _).bind fun _ ↦
      (neat_addNode (fun _ ↦ rfl) fun key table index w hkind ↦ ?_).bind fun key ↦
      (neat_relate key).bind fun _ ↦ (tame_connect key).neat.bind fun _ ↦
      (tame_takeWon key).neat.bind fun _ ↦ (tame_pull key).neat.bind fun _ ↦ neat_pure) hc
    obtain ⟨rfl, rfl, -⟩ := Kind.rule.inj hkind
    rfl

/-- A change of a node that is looked up first. -/
theorem catalogued_expect {id : NodeId} {type : NodeType} {expected : ExpectedRole}
    {change : Node → Engine α} (hx : ∀ n, Neat (change n)) (hc : Catalogued net) :
    Catalogued (match net.expect id type expected with
      | .error e => .refused net e
      | .ok n => net.carryOut (change n) : Outcome α).network := by
  split
  · exact hc
  · exact catalogued_carryOut (hx _) hc

theorem catalogued_removeRule {id : NodeId} (hc : Catalogued net) :
    Catalogued (net.removeRule id).network :=
  catalogued_expect (fun _ ↦ (neat_setEvent _).bind fun _ ↦ neat_removeRuleNode _) hc

theorem catalogued_removeSource {id : NodeId} (hc : Catalogued net) :
    Catalogued (net.removeSource id).network :=
  catalogued_expect (fun _ ↦ (neat_setEvent _).bind fun _ ↦ neat_removePlainNode _) hc

theorem catalogued_removeProbe {id : NodeId} (hc : Catalogued net) :
    Catalogued (net.removeProbe id).network :=
  catalogued_expect (fun _ ↦ (neat_stopProbe _).bind fun _ ↦ neat_removePlainNode _) hc

theorem catalogued_restartProbe {id : NodeId} (hc : Catalogued net) :
    Catalogued (net.restartProbe id).network :=
  catalogued_expect (fun _ ↦ (neat_stopProbe _).bind fun _ ↦ neat_startProbe _) hc

theorem catalogued_addLink {l : Link} (hc : Catalogued net) :
    Catalogued (net.addLink l).network := by
  rw [addLink]
  split
  · exact hc
  · exact catalogued_carryOut ((neat_setEvent _).bind fun _ ↦
      (neat_update (by exact fun _ hc ↦ hc.congr rfl rfl rfl)).bind fun _ ↦
        (tame_connectLink l).neat) hc

theorem catalogued_removeLink {l : Link} (hc : Catalogued net) :
    Catalogued (net.removeLink l).network := by
  rw [removeLink]
  split
  · exact hc
  · exact catalogued_carryOut ((neat_setEvent _).bind fun _ ↦
      (tame_disconnectLink l).neat.bind fun _ ↦
      neat_update fun _ hc ↦ hc.congr rfl rfl rfl) hc

theorem catalogued_addSource {space : Space} {ports : List Port} (hc : Catalogued net) :
    Catalogued (net.addSource space ports).network := by
  simp only [addSource]
  split
  · exact hc
  split
  · exact hc
  · refine catalogued_carryOut ((neat_setEvent _).bind fun _ ↦
      (neat_addNode (fun _ ↦ rfl) fun _ _ _ _ hkind ↦ ?_).bind fun key ↦
      (tame_connect key).neat.bind fun _ ↦ (tame_insertFlow _).neat.bind fun root ↦
      (tame_alterNode _ (by exact fun _ ↦ rfl)).neat.bind fun _ ↦
      (tame_arrive key root).neat.bind fun _ ↦ neat_pure) (hc.congr rfl rfl rfl)
    cases hkind

theorem catalogued_addProbe {spec : ProbeSpec} (hc : Catalogued net) :
    Catalogued (net.addProbe spec).network := by
  simp only [addProbe]
  split
  · exact hc
  split
  · exact hc
  · refine catalogued_carryOut ((neat_addNode (fun _ ↦ rfl) fun _ _ _ _ hkind ↦ ?_).bind fun key ↦
      (tame_connect key).neat.bind fun _ ↦ (tame_pull key).neat.bind fun _ ↦
      (neat_startProbe key).bind fun _ ↦ neat_pure) (hc.congr rfl rfl rfl)
    cases hkind

theorem catalogued_expand {bytes : Nat} (hc : Catalogued net) :
    Catalogued (net.expand bytes).network := by
  rw [expand]
  split
  · exact hc
  · have hkeys : ((net.nodes.map (Node.enlarge bytes)).map Node.core).map Core.key =
        net.layout.cores.map Core.key := by
      simp [layout, Function.comp_def, Node.enlarge, Node.core]
    refine ⟨hkeys ▸ hc.nodup, fun m hm ↦ ?_, fun m hm table index w hkind ↦ ?_, hc.tables⟩
    all_goals
      obtain ⟨n, hn, rfl⟩ := List.mem_map.1
        (show m ∈ net.nodes.map fun n ↦ (n.enlarge bytes).core by
        simpa [layout, Outcome.done, Function.comp_def] using hm)
      have hn := List.mem_map_of_mem (f := Node.core) hn
    · exact hc.fresh n.core hn
    · cases hrole : n.role with
      | rule r =>
        simp only [Node.core, Node.enlarge, hrole, Role.kind, Kind.rule.injEq] at hkind
        obtain ⟨rfl, rfl, -⟩ := hkind
        exact hc.called _ hn _ _ r.overwrite (by simp [Node.core, hrole, Role.kind])
      | source => simp [Node.core, Node.enlarge, hrole, Role.kind] at hkind
      | probe q => simp [Node.core, Node.enlarge, hrole, Role.kind] at hkind

theorem catalogued_audit {table : Option TableId} (hc : Catalogued net) :
    Catalogued (net.audit table).network := by
  simp only [audit]
  split
  · exact hc
  · split <;> exact hc

/-- **All changes keep the catalogue in order.** -/
theorem catalogued_apply (hc : Catalogued net) (m : Mutation) :
    Catalogued (net.apply m).network := by
  cases m with
  | addTable id ports => exact catalogued_addTable hc
  | removeTable id => exact catalogued_removeTable hc
  | addRule spec => exact catalogued_addRule hc
  | removeRule id => exact catalogued_removeRule hc
  | addLink l => exact catalogued_addLink hc
  | removeLink l => exact catalogued_removeLink hc
  | addSource space ports => exact catalogued_addSource hc
  | addSourcePattern p ports => exact catalogued_addSource hc
  | removeSource id => exact catalogued_removeSource hc
  | addProbe spec => exact catalogued_addProbe hc
  | removeProbe id => exact catalogued_removeProbe hc
  | restartProbe id => exact catalogued_restartProbe hc
  | expand bytes => exact catalogued_expand hc
  | audit table => exact catalogued_audit hc

/-- **In every network that can arise the catalogue is in order.** -/
theorem Arises.catalogued (ha : Arises net) : Catalogued net := by
  induction ha with
  | new bytes settings clock => exact ⟨.nil, by rintro _ ⟨⟩, by rintro _ ⟨⟩, .nil⟩
  | apply m _ _ ih => exact catalogued_apply ih m

end Network

end HeaderFlow
