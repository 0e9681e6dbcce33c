import HeaderFlow.Proofs.Network.RuleChanges

/-!
# Changes of sources and probes

Sources and probes are nodes without influences, so their pipes are all there is to connect and
disconnect. They differ in which way the flows go: a new source gets a root, which is sent down its
pipes, and a new probe pulls what arrives at it.

The identifiers of both come from one counter, which must not run out (`Network.freshId_eq_ok`).

## Probes are quiet

Starting or stopping a probe asks about the flows that are there, and changes neither them nor the
layout (`Engine.quiet_startProbe`, `Engine.quiet_stopProbe`); all that is left to say of it is what
the probe records, which `Engine.Leads.startProbe` and `Engine.Leads.stopProbe` put into equations
for later.

## Roots

Adding a source is the one change that is not a `SameSources`: afterwards there is a root more, with
the headers that the source was added with (`Rooted.insertRoot`).
-/

namespace HeaderFlow

open Region

variable {L : Layout} {net net' : Network} {F : Arena Flow} {D : Set Debt} {X : Set Handle}
  {E : NodeKey → NodeKey → Link → Prop} {R : NodeKey → NodeKey → Prop} {key : NodeKey} {h : Handle}

/-! ### Starting and stopping probes -/

namespace Engine

/-- Reports change nothing, however many there are. -/
theorem Leads.forM_report {α : Type} {l : List α} {r : α → Option Event → Report}
    (hl : Leads (l.forM fun a ↦ do report (r a (← event))) net () net') : net' = net := by
  refine hl.forM (I := fun _ mid ↦ mid = net) rfl ?_
  rintro a rest mid mid' - rfl hstep
  rw [leads_event_bind, leads_report] at hstep
  exact hstep

/-- **What starting a probe comes to**: it is asked about the flows at its node that have
headers. -/
theorem Leads.startProbe (hl : Leads (Engine.startProbe key) net () net') :
    ∃ n, net.nodeAt? key = some n ∧
    let begun := { net with lastEvent := some { kind := .startProbe, first := n.id.toNat } }
    (n.probe? = none ∧ net' = begun ∨
      ∃ p l q ts, n.probe? = some p ∧ liveChains begun n.flows = .ok l ∧
      p.start l = .ok (q, ts) ∧ net' = withNode begun key fun n ↦ { n with role := .probe q }) := by
  rw [Engine.startProbe, leads_node_bind] at hl
  obtain ⟨n, hn, hl⟩ := hl
  rw [leads_setEvent_bind, leads_ask_bind] at hl
  obtain ⟨l, hlive, hl⟩ := hl
  refine ⟨n, hn, ?_⟩
  cases hp : n.probe? with
  | none =>
    simp only [hp] at hl
    exact .inl ⟨rfl, (leads_pure.1 hl).2⟩
  | some p =>
    simp only [hp, leads_check_bind] at hl
    obtain ⟨⟨q, ts⟩, hstart, hl⟩ := hl
    rw [leads_updateNode_bind] at hl
    exact .inr ⟨p, l, q, ts, rfl, hlive, hstart, hl.forM_report⟩

/-- **What stopping a probe comes to.** -/
theorem Leads.stopProbe (hl : Leads (Engine.stopProbe key) net () net') :
    ∃ n, net.nodeAt? key = some n ∧
    let begun := { net with lastEvent := some { kind := .stopProbe, first := n.id.toNat } }
    (n.probe? = none ∧ net' = begun ∨
      ∃ p, n.probe? = some p ∧ net' = withNode begun key fun n ↦
        { n with role := .probe p.stop }) := by
  rw [Engine.stopProbe, leads_node_bind] at hl
  obtain ⟨n, hn, hl⟩ := hl
  rw [leads_setEvent_bind] at hl
  refine ⟨n, hn, ?_⟩
  cases hp : n.probe? with
  | none =>
    simp only [hp] at hl
    exact .inl ⟨rfl, (leads_pure.1 hl).2⟩
  | some p =>
    simp only [hp] at hl
    exact .inr ⟨p, rfl, leads_updateNode.1 hl⟩

/-- **Starting a probe is quiet.** -/
theorem quiet_startProbe (hl : Leads (startProbe key) net () net')
    (hnodup : (net.nodes.map Node.key).Nodup) : Quiet net net' := by
  obtain ⟨n, hn, ⟨-, rfl⟩ | ⟨p, l, q, ts, hp, -, -, rfl⟩⟩ := hl.startProbe
  · exact quiet_begin net _ net.budget
  · exact (quiet_begin net _ net.budget).trans (quiet_setProbe hnodup hn hp)

/-- **Stopping a probe is quiet.** -/
theorem quiet_stopProbe (hl : Leads (stopProbe key) net () net')
    (hnodup : (net.nodes.map Node.key).Nodup) : Quiet net net' := by
  obtain ⟨n, hn, ⟨-, rfl⟩ | ⟨p, hp, rfl⟩⟩ := hl.stopProbe
  · exact quiet_begin net _ net.budget
  · exact (quiet_begin net _ net.budget).trans (quiet_setProbe hnodup hn hp)

end Engine

/-! ### Sources and probes -/

/-- Influences are between rules only. -/
theorem Layout.Ranked.of_plain {n : Core}
    (hr : L.Ranked fun m c ↦ R m c ∨ involving key m c) (hL : L.WellFormed)
    (hn : L.core? key = some n) (hplain : ¬ n.IsRule) : L.Ranked R := by
  have hne : ∀ {m : Core}, m ∈ L.cores → m.IsRule → m.key ≠ key := by
    rintro m hm hrule rfl
    obtain rfl := Option.some.inj ((Layout.core?_of_mem hL.nodup hm).symm.trans hn)
    exact hplain hrule
  intro s hs t ht table place place' w w' hks hkt hlt hnot
  refine hr s hs t ht table place place' w w' hks hkt hlt fun he ↦ he.elim hnot fun hinv ↦ ?_
  exact hinv.elim (hne ht ⟨_, _, _, hkt⟩) (hne hs ⟨_, _, _, hks⟩)

/-- **The roots once a source was added**: those there were, and the new one. -/
theorem Rooted.insertRoot {spaces : NodeKey → Option Space} {space : Space} (hr : Rooted net spaces)
    (hvalid : net.flows.Valid) (hfree : ∀ h f, net.flows.find? h = some f → f.node ≠ key)
    (hroots : SameRoots (fun _ ↦ True)
      (net.flows.insert (.root key net.flows.nextHandle space)) net'.flows)
    (hcores : ∀ n ∈ net'.layout.cores, n ∈ net.layout.cores ∨ n.key = key) :
    Rooted net' (Function.update spaces key (some space)) := by
  -- a root is the new one, or it was there before at another source
  have hold : ∀ h f', net'.flows.find? h = some f' → f'.parent = none →
      (h = net.flows.nextHandle ∧ f'.node = key ∧ f'.input = space) ∨
      ∃ f, net.flows.find? h = some f ∧ f.Alike f' ∧ f'.node ≠ key := by
    intro h f' hf' hp
    obtain ⟨f, hf, cs, rfl⟩ := hroots.old h f' hf' hp
    rcases Arena.of_find?_insert hvalid hf with ⟨hh, rfl⟩ | ⟨-, hf⟩
    · exact .inl ⟨hh, rfl, rfl⟩
    · exact .inr ⟨f, hf, ⟨cs, rfl⟩, hfree h f hf⟩
  refine ⟨fun h f' hf' hp ↦ ?_, fun m hm hkind ↦ ?_, fun h g f' k' hf' hp hk' hpk hnode ↦ ?_⟩
  · rcases hold h f' hf' hp with ⟨-, rfl, rfl⟩ | ⟨f, hf, ⟨cs, rfl⟩, hne⟩
    · exact ⟨f'.input, Function.update_self .., fun x ↦ Iff.rfl, rfl⟩
    · obtain ⟨s, hs, hcover⟩ := hr.root h f hf hp
      exact ⟨s, (Function.update_of_ne hne _ _).trans hs, hcover⟩
  · rcases hcores m hm with hm | rfl
    · obtain ⟨h, f, hf, hp, hnode⟩ := hr.source m hm hkind
      obtain ⟨f', hf', halike⟩ :=
        hroots.kept h f (Arena.find?_insert_of_some hvalid hf) hp trivial
      exact ⟨h, f', hf', (Flow.parent_eq halike.way).trans hp,
        (Flow.node_eq halike.way).trans hnode⟩
    · obtain ⟨f', hf', halike⟩ := hroots.kept _ _ (Arena.find?_insert_self hvalid) rfl trivial
      exact ⟨_, f', hf', Flow.parent_eq halike.way, Flow.node_eq halike.way⟩
  · rcases hold h f' hf' hp with ⟨rfl, hkey', -⟩ | ⟨f, hf, ⟨cs, rfl⟩, hne⟩
    · rcases hold g k' hk' hpk with ⟨rfl, -⟩ | ⟨-, -, -, hne'⟩
      · rfl
      · exact absurd (hnode.trans hkey') hne'
    · rcases hold g k' hk' hpk with ⟨-, hkey', -⟩ | ⟨k, hk, ⟨ds, rfl⟩, -⟩
      · exact absurd (hnode.symm.trans hkey') hne
      · exact hr.unique h g f k hf hp hk hpk hnode

namespace Network

open Engine

/-- The identifier of a new source or probe is the next one. -/
theorem freshId_eq_ok {id : NodeId} :
    net.freshId = .ok id ↔ net.nextId.toNat + 1 ≠ UInt64.size ∧ id = net.nextId := by
  rw [freshId]
  split
  · simp_all
  · simp_all [eq_comm]

theorem eq_nextId_of_freshId {id : NodeId} (hid : net.freshId = .ok id) : id = net.nextId :=
  (freshId_eq_ok.1 hid).2

/-- Nothing is owed for the pipes to a node that takes nothing in. -/
theorem inbound_eq_empty {n : Core} (hL : L.WellFormed) (hn : L.core? key = some n)
    (hin : n.inPorts.toList = []) : inbound L key = ∅ := by
  refine Set.eq_empty_iff_forall_notMem.2 ?_
  rintro e ⟨h, fwd, w, rfl, hw, rfl⟩
  obtain ⟨-, m, -, -, hm, -, -, hport, -⟩ := hL.ends hw
  obtain rfl := Option.some.inj (hm.symm.trans hn)
  exact absurd (hin ▸ hport) List.not_mem_nil

/-- **A new source**: its node is entered and connected, and its root is sent down all pipes. No
pipe leads to a source, so none of its own is owed. What holds of roots holds afterwards of one root
more. -/
theorem addSource_upheld {space : Space} {ports : List Port} {id : NodeId}
    (hok : (net.addSource space ports).result = .ok id) (hU : Upheld net D ∅ E R) :
    Upheld (net.addSource space ports).network D ∅ E R ∧ ∀ spaces, Rooted net spaces →
      Rooted (net.addSource space ports).network
        (Function.update spaces net.nextKey (some space)) := by
  rw [addSource] at hok ⊢
  split at hok
  · exact absurd hok (by simp [Outcome.refused])
  · rw [if_neg ‹_›]
    split at hok
    · exact absurd hok (by simp [Outcome.refused])
    · rename_i hid
      obtain rfl := eq_nextId_of_freshId hid
      have hl := leads_of_carryOut hok
      rw [leads_setEvent_bind] at hl
      obtain ⟨key, net₁, hadd, hl⟩ := hl.bind
      obtain ⟨⟨⟩, net₂, hconnect, hl⟩ := hl.bind
      rw [leads_insertFlow_bind, leads_alterNode_bind] at hl
      obtain ⟨-, hl⟩ := hl
      obtain ⟨⟨⟩, net₃, harrive, hl⟩ := hl.bind
      obtain ⟨-, hlast⟩ := leads_pure.1 hl
      rw [hlast]
      have hbegin : Upheld { net with
          nextId := net.nextId + 1
          budget := net.budget.reset
          lastEvent := some { kind := .addSource, first := net.nextId.toNat } } D ∅ E R :=
        hU.quiet ⟨rfl, rfl, rfl⟩
      obtain ⟨hU₁, hflows₁, hgrow, hkey, hn, hfree⟩ := upheld_addNode hadd hbegin (fun _ ↦ rfl)
        (fun _ ↦ ⟨rfl, rfl, rfl, rfl, rfl⟩)
        (fun _ ↦ ⟨rfl, rfl, fun x ↦ Pattern.matches_allWild _ x⟩)
          (Registry.admits_of_plain (by rintro ⟨_, _, _, ⟨⟩⟩))
      have hcore₁ := Layout.core?_of_nodeAt? hn
      have hU₁' : Upheld net₁ D ∅ (fun s r l ↦ E s r l ∨ touching key s r l) R :=
        { hU₁ with ranked := hU₁.ranked.of_plain hU₁.inv.layout hcore₁ (by rintro ⟨_, _, _, ⟨⟩⟩) }
      obtain ⟨hU₂, hflows, hplan⟩ := upheld_connect hconnect hU₁' hfree
      have hcore₂ := hplan.core?.trans hcore₁
      obtain ⟨n, hn₂, hsame⟩ := exists_nodeAt? hcore₂
      have hrole : n.role = .source := role_of_kind (congrArg Core.kind hsame)
      -- no pipe leads to a source, so none is owed
      have hI₂ : Inv net₂ ∅ D := by
        simpa only [inbound_eq_empty hU₂.inv.layout hcore₂ rfl, Set.union_empty] using hU₂.inv
      have hself : (net₂.flows.insert (.root key net₂.flows.nextHandle space)).find?
          net₂.flows.nextHandle = some (.root key net₂.flows.nextHandle space) :=
        Arena.find?_insert_self hI₂.valid
      obtain ⟨hI₄, hframe⟩ := inv_arriveRoot (D := D) (f := .root key net₂.flows.nextHandle space)
        harrive (inv_insertRoot space hI₂ hn₂ hrole) hself rfl (nodeAt?_withRoot hn₂) hrole
      have hlayout : net₃.layout = net₂.layout := hframe.layout.trans (layout_withRoot space)
      refine ⟨hU₂.propagate hI₄ hlayout, fun spaces hr ↦ ?_⟩
      have hflows₂ : net₂.flows = net.flows := hflows.trans hflows₁
      have hroots := hframe.sameRoots (K := fun _ ↦ True)
      rw [show (withRoot net₂ key space).flows =
        net₂.flows.insert (.root key net₂.flows.nextHandle space) from rfl, hflows₂] at hroots
      rw [← hkey]
      refine hr.insertRoot hU.inv.valid (fun h f hf ↦ hfree h f (hflows₁ ▸ hf)) hroots fun m hm ↦ ?_
      rw [hlayout, hplan.cores, hgrow] at hm
      refine (List.mem_append.1 hm).imp_right fun hm ↦ ?_
      rw [List.mem_singleton.1 hm]
      rfl

/-- A source or a probe is still none of the rules after quiet steps. -/
theorem exists_plain {n : Node} {mid : Network} (hq : Quiet net mid) (hL : net.layout.WellFormed)
    (hmem : n ∈ net.nodes) (htype : n.type ≠ .rule) :
    ∃ n', mid.nodeAt? n.key = some n' ∧ n'.rule? = none := by
  have hcore : mid.layout.core? n.key = some n.core := by
    rw [hq.layout]
    exact core?_core hL.nodup hmem
  obtain ⟨n', hn', hsame⟩ := exists_nodeAt? hcore
  refine ⟨n', hn', ?_⟩
  cases hr : n'.rule? with
  | none => rfl
  | some r =>
    have hkind := kind_of_rule? hr
    rw [hsame] at hkind
    cases hrole : n.role <;> simp [Node.type, Node.core, Role.kind, hrole] at htype hkind

/-- Removing a source or a probe after quiet steps. -/
theorem removePlain_upheld {n : Node} {mid mid' : Network} (hq : Quiet net mid)
    (hl : Leads (removePlainNode n.key) mid () mid') (hmem : n ∈ net.nodes)
    (htype : n.type ≠ .rule) (hU : Upheld net D ∅ E R) :
    Upheld mid' D ∅ E R ∧ SameSources net mid' := by
  obtain ⟨n', hn', hplain⟩ := exists_plain hq hU.inv.layout hmem htype
  exact (upheld_removePlainNode hl (hU.quiet hq) hn' hplain).imp_right hq.sameSources.trans

/-- **A source that goes** takes the tree of its root with it. -/
theorem removeSource_upheld {id : NodeId} {u : Unit} (hok : (net.removeSource id).result = .ok u)
    (hU : Upheld net D ∅ E R) :
    Upheld (net.removeSource id).network D ∅ E R ∧
      SameSources net (net.removeSource id).network := by
  rw [removeSource] at hok ⊢
  cases hn : net.expect id .source .source with
  | error e => simp [hn, Outcome.refused] at hok
  | ok n =>
    simp only [hn] at hok ⊢
    obtain ⟨hmem, htype⟩ := of_expect hn
    have hl := leads_of_carryOut hok
    rw [leads_setEvent_bind] at hl
    exact removePlain_upheld (quiet_begin net _ _) hl hmem (by simp [htype]) hU

/-- **A new probe**: its node is entered and connected, what arrives is pulled, and then it is
started. Starting it is quiet, so all that has to be shown is shown by then. -/
theorem addProbe_upheld {spec : ProbeSpec} {id : NodeId} (hok : (net.addProbe spec).result = .ok id)
    (hU : Upheld net D ∅ E R) :
    Upheld (net.addProbe spec).network D ∅ E R ∧ SameSources net (net.addProbe spec).network := by
  rw [addProbe] at hok ⊢
  split at hok
  · exact absurd hok (by simp [Outcome.refused])
  · split at hok
    · exact absurd hok (by simp [Outcome.refused])
    · rename_i hid
      obtain rfl := eq_nextId_of_freshId hid
      have hl := leads_of_carryOut hok
      obtain ⟨key, net₁, hadd, hl⟩ := hl.bind
      obtain ⟨⟨⟩, net₂, hconnect, hl⟩ := hl.bind
      obtain ⟨⟨⟩, net₃, hpull, hl⟩ := hl.bind
      obtain ⟨⟨⟩, net₄, hstart, hl⟩ := hl.bind
      obtain ⟨-, hlast⟩ := leads_pure.1 hl
      rw [hlast]
      have hbegin : Upheld { net with nextId := net.nextId + 1, budget := net.budget.reset }
          D ∅ E R :=
        hU.quiet ⟨rfl, rfl, rfl⟩
      obtain ⟨hU₁, hflows₁, hgrow, -, hn, hfree⟩ := upheld_addNode hadd hbegin (fun _ ↦ rfl)
        (fun _ ↦ ⟨rfl, rfl, rfl, rfl, rfl⟩) (fun _ ↦ ⟨rfl, rfl⟩)
          (Registry.admits_of_plain (by rintro ⟨_, _, _, ⟨⟩⟩))
      have hcore₁ := Layout.core?_of_nodeAt? hn
      have hU₁' : Upheld net₁ D ∅ (fun s r l ↦ E s r l ∨ touching key s r l) R :=
        { hU₁ with ranked := hU₁.ranked.of_plain hU₁.inv.layout hcore₁ (by rintro ⟨_, _, _, ⟨⟩⟩) }
      obtain ⟨hU₂, hflows₂, hplan⟩ := upheld_connect hconnect hU₁' hfree
      obtain ⟨hI, hframe⟩ := inv_pull hpull hU₂.inv
      have hU₃ := hU₂.propagate hI hframe.layout
      have hq := quiet_startProbe hstart (map_key_cores net₃ ▸ hU₃.inv.layout.nodup)
      refine ⟨hU₃.quiet hq, .trans (.of_sameRoots (K := fun _ ↦ True) ?_ ?_) hq.sameSources⟩
      · have hflows : net₂.flows = net.flows := hflows₂.trans hflows₁
        exact (SameRoots.of_eq hflows).trans hframe.sameRoots
      · intro m hm hkind
        rw [hframe.layout, hplan.cores, hgrow] at hm
        refine ⟨(List.mem_append.1 hm).resolve_right fun hlast ↦ ?_, trivial⟩
        rw [List.mem_singleton.1 hlast] at hkind
        exact absurd hkind (by simp [Node.unconnected, Node.core, Role.kind])

/-- **A probe that goes** is stopped first, which is quiet. -/
theorem removeProbe_upheld {id : NodeId} {u : Unit} (hok : (net.removeProbe id).result = .ok u)
    (hU : Upheld net D ∅ E R) :
    Upheld (net.removeProbe id).network D ∅ E R ∧
      SameSources net (net.removeProbe id).network := by
  rw [removeProbe] at hok ⊢
  cases hn : net.expect id .sourceProbe .probe with
  | error e => simp [hn, Outcome.refused] at hok
  | ok n =>
    simp only [hn] at hok ⊢
    obtain ⟨hmem, htype⟩ := of_expect hn
    have hl := leads_of_carryOut hok
    obtain ⟨⟨⟩, mid, hstop, hl⟩ := hl.bind
    have hquiet := quiet_stopProbe hstop (map_key_cores net ▸ hU.inv.layout.nodup)
    exact removePlain_upheld ((Quiet.budget net _).trans hquiet) hl hmem (by simp [htype]) hU

/-- **A probe that is restarted** is stopped and started, both of which are quiet. -/
theorem restartProbe_upheld {id : NodeId} {u : Unit} (hok : (net.restartProbe id).result = .ok u)
    (hU : Upheld net D ∅ E R) :
    Upheld (net.restartProbe id).network D ∅ E R ∧
      SameSources net (net.restartProbe id).network := by
  rw [restartProbe] at hok ⊢
  cases hn : net.expect id .sourceProbe .probe with
  | error e => simp [hn, Outcome.refused] at hok
  | ok n =>
    simp only [hn] at hok ⊢
    have hl := leads_of_carryOut hok
    obtain ⟨⟨⟩, mid, hstop, hstart⟩ := hl.bind
    have hquiet := quiet_stopProbe hstop (map_key_cores net ▸ hU.inv.layout.nodup)
    have hU₁ := hU.quiet ((Quiet.budget net _).trans hquiet)
    have hquiet' := quiet_startProbe hstart (map_key_cores mid ▸ hU₁.inv.layout.nodup)
    exact ⟨hU₁.quiet hquiet', (((Quiet.budget net _).trans hquiet).trans hquiet').sameSources⟩

end Network

end HeaderFlow
