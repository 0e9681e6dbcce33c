import HeaderFlow.Proofs.Network.Faultless
import HeaderFlow.Proofs.Network.Upkeep

/-!
# What a change leaves behind

A change is refused, comes to its end, or is broken off. **Whichever it is, everything is in order
afterwards, and it is broken off only where the limits are too tight** (`Outcome.Settles`). So what
is in order stays so along any sequence of changes: `Network.Attained` is the relation of all
networks that any changes lead to, and `Network.Attained.orderly` what is known of them.

Each change is followed step by step from one poised network to the next. A new source is the only
place where a flow is listed that did not come out of a pipe.

## Three relations of networks

* `Network.Reached`: every change came to its end. This is what exactness needs.
* `Network.Attained`: changes may have been refused or broken off as well, as long as none broke a
  precondition of the code it stands for.
* `Network.Arises`: the same, where each change was given only what it may be given; it is the
  relation that does not speak of faults at all.

`Reached.attained` and `Arises.attained` say that the second is the widest, so that what is orderly
is known of all three.

## How a change settles

For each change there is a lemma `settles_…`, and all have the same shape. Either the change is
refused before anything was done (`settles_refused`), or it is carried out with a fresh budget
(`settles_carryOut`) as a computation from one poised network to another. The steps of that
computation have been followed in the modules before this one, halts included.
-/

namespace HeaderFlow

open Engine

variable {α β : Type} {net net' : Network} {s : Settings} {key : NodeKey} {h : Handle} {f : Flow}
  {n : Node}

/-! ### The root of a source -/

section

variable {space : Space} {root : Flow}

/-- The root of a source, and then what was listed before. -/
theorem holds_withRoot (hK : Kin net ∅) (hn : net.nodeAt? key = some n)
    (hroot : root = .root key net.flows.nextHandle space) :
    (withRoot net key space).Holds h f ↔
      (net.withFlows (net.flows.insert root)).Holds h f ∨ h = net.flows.nextHandle ∧ f = root := by
  subst hroot
  have hroster : (withRoot net key space).roster f.node =
      if f.node = key then net.roster f.node ++ [net.flows.nextHandle] else net.roster f.node :=
    roster_enlist hn f.node
  have hself : (withRoot net key space).flows.find? net.flows.nextHandle =
      some (.root key net.flows.nextHandle space) := Arena.find?_insert_self hK.valid
  rw [Network.Holds, Network.Holds, hroster]
  constructor
  · rintro ⟨hf, hmem⟩
    split at hmem
    · rcases List.mem_append.1 hmem with hmem | hmem
      · exact .inl ⟨hf, hmem⟩
      · obtain rfl := List.mem_singleton.1 hmem
        exact .inr ⟨rfl, Option.some.inj (hf.symm.trans hself)⟩
    · exact .inl ⟨hf, hmem⟩
  · rintro (⟨hf, hmem⟩ | ⟨rfl, rfl⟩)
    · refine ⟨hf, ?_⟩
      split
      · exact List.mem_append_left _ hmem
      · exact hmem
    · exact ⟨hself, by simp [Flow.root]⟩

/-- **A new root goes on**, and nothing is above it. -/
theorem kin_withRoot (hK : Kin net ∅) (hn : net.nodeAt? key = some n) (hrole : n.role = .source)
    (hroot : root = .root key net.flows.nextHandle space) :
    Kin (withRoot net key space) ∅ ∧
      Onward (withRoot net key space) net.flows.nextHandle 0 root := by
  obtain ⟨hcore, hkind⟩ := kind_of_role hn hrole
  have hmid : Kin (net.withFlows (net.flows.insert root)) ∅ := (Prunes.insert (d := 0) hK).kin hK
  have hlayout : (withRoot net key space).layout = net.layout := layout_withRoot space
  have hflows : (withRoot net key space).flows = net.flows.insert root := hroot ▸ rfl
  have hholds : ∀ {h f}, (withRoot net key space).Holds h f ↔ _ := holds_withRoot hK hn hroot
  have htraces : ∀ {P : Flow → Prop} {h}, (net.withFlows (net.flows.insert root)).Traces P h →
      (withRoot net key space).Traces P h := fun ht ↦
    Or.imp (hflows ▸ id) (fun ⟨f, hf, hP⟩ ↦ ⟨f, hholds.2 (.inl hf), hP⟩) ht
  have hself : (withRoot net key space).Holds net.flows.nextHandle root :=
    hholds.2 (.inr ⟨rfl, rfl⟩)
  have hnode : root.node = key := hroot ▸ rfl
  have hparent : root.parent = none := hroot ▸ rfl
  have hplain : net.layout.loopKey? root.node = none := by
    rw [hnode, Layout.loopKey?, hcore]
    simp [hkind, Role.kind]
  have htop : Line (withRoot net key space).flows net.flows.nextHandle 0 :=
    .top hself.1 fun p hp ↦ absurd hp (by simp [hparent])
  -- storing the root is known to be harmless; listed, it has no kin and no place
  refine ⟨⟨hflows ▸ hmid.valid, fun key' h hmem ↦ ?_, fun h f p hf hp ↦ ?_, fun h f c hf hc ↦ ?_,
    fun h f m hf hm hkind ↦ ?_, fun h f place hf _ hloop hplace ↦ ?_, fun h f hf ↦ ?_⟩,
    ⟨hself, hroot ▸ rfl, fun m hm ↦ ?_, htop⟩⟩
  · rw [show (withRoot net key space).roster key' = _ from roster_enlist hn key'] at hmem
    split at hmem
    · rename_i hkey
      rcases List.mem_append.1 hmem with hmem | hmem
      · exact hflows ▸ hmid.roster key' h hmem
      · rw [List.mem_singleton.1 hmem]
        exact ⟨root, hself.1, hnode.trans hkey.symm⟩
    · exact hflows ▸ hmid.roster key' h hmem
  · rw [hlayout]
    rcases hholds.1 hf with hf | ⟨rfl, rfl⟩
    · exact htraces (hmid.parent h f p hf hp)
    · exact absurd hp (by simp [hparent])
  · rcases hholds.1 hf with hf | ⟨rfl, rfl⟩
    · exact htraces (hmid.children h f c hf hc)
    · subst hroot
      exact absurd hc List.not_mem_nil
  · rcases hholds.1 hf with hf | ⟨rfl, rfl⟩
    · exact hmid.source h f m hf (hlayout ▸ hm) hkind
    · exact hparent
  · rw [hlayout] at hplace ⊢
    rw [hflows]
    rcases hholds.1 hf with hf | ⟨rfl, rfl⟩
    · exact hmid.apart h f place hf (Set.notMem_empty h) hloop hplace
    · exact absurd (hplain.symm.trans hplace) (by simp)
  · rcases hholds.1 hf with hf | ⟨rfl, rfl⟩
    · exact hflows ▸ hmid.line h f hf
    · exact ⟨0, htop⟩
  · rw [hlayout, hnode] at hm
    obtain rfl := Option.some.inj (hcore.symm.trans hm)
    simp [hkind, Role.kind]

/-- **The headers of a new source flow.** -/
theorem Poised.arriveRoot (hP : Poised s net) (hn : net.nodeAt? key = some n)
    (hrole : n.role = .source) :
    Ends (Engine.arrive key net.flows.nextHandle) (withRoot net key space) (Overtaxed s)
      fun _ ↦ Poised s := by
  have hroot : Flow.root key net.flows.nextHandle space = .root key _ space := rfl
  obtain ⟨hK, ho⟩ := kin_withRoot hP.kin hn hrole hroot
  have hlayout : (withRoot net key space).layout = net.layout := layout_withRoot space
  have hP' : Poised s (withRoot net key space) :=
    hP.step ⟨rfl, rfl⟩ (hlayout ▸ hP.exact) (hlayout ▸ hP.graded) hK
  refine (hP'.goes ((goes_arriveRoot hP'.underway ho (nodeAt?_withRoot hn) hrole).weaken
    fun _ _ hgoes ↦ hgoes.mono (Nat.zero_le _))).weaken fun _ _ hend ↦ hend.1

end

/-! ### New nodes -/

/-- A node that was just entered has no pipes and no influences. -/
theorem Node.Bare.isolated (hbare : n.Bare) (hn : net.nodeAt? key = some n) :
    net.layout.Isolated key where
  next := (Network.tied_of_nodeAt? hn).trans hbare.next
  prev := (Network.tied_of_nodeAt? hn).trans hbare.prev
  lost := (Network.tied_of_nodeAt? hn).trans hbare.lost
  won := (Network.tied_of_nodeAt? hn).trans hbare.won

/-- **A new node, and what is done with it.** -/
theorem Poised.addNode_bind {node : NodeKey → Node} {k : NodeKey → Engine α}
    {Q : α → Network → Prop} (hP : Poised s net) (hkey : ∀ k, (node k).key = k)
    (hbare : ∀ k, (node k).Bare) (hproper : ∀ k, (node k).core.Proper)
    (hadmits : ∀ key, net.registry.Admits net.layout.cores (node key).core)
    (hk : ∀ key mid, Poised s mid → mid.nodeAt? key = some (node key) → mid.layout.Isolated key →
      Ends (k key) mid (Overtaxed s) Q) :
    Ends (Engine.addNode node >>= k) net (Overtaxed s) Q := by
  refine .steady_bind (steady_addNode node) fun key mid hadd ↦ ?_
  obtain ⟨hPmid, hn, -⟩ := hP.addNode hadd hkey hbare hproper (hadmits key)
  exact hk key mid hPmid hn ((hbare key).isolated hn)

/-- **A new node is connected.** -/
theorem Poised.connect (hP : Poised s net) (hl : Leads (Engine.connect key) net () net')
    (hnext : net.layout.next key = []) (hprev : net.layout.prev key = []) :
    Poised s net' ∧ Rewired net net' := by
  obtain ⟨hL, hr⟩ := hl.exact_connect hP.exact hnext hprev
  exact ⟨hP.rewired ((tame_connect key).steady.budget hl) hL hr, hr⟩

/-- **A new rule is related to the others of its table.** -/
theorem Poised.relate (hP : Poised s net) (hl : Leads (Engine.relate key) net () net')
    (hlost : net.layout.lost key = []) (hwon : net.layout.won key = []) :
    Poised s net' ∧ Reranked net net' := by
  obtain ⟨hG, hr⟩ := hl.graded_relate hP.graded hP.exact.toWellFormed hlost hwon
  exact ⟨hP.reranked ((steady_relate key).budget hl) hG hr, hr⟩

/-- **A new rule takes what it wins.** -/
theorem Poised.takeWon (hP : Poised s net) :
    Ends (Engine.takeWon key) net (Overtaxed s) fun _ ↦ Poised s := by
  have hU := hP.underway
  refine (hP.goes ?_).weaken fun _ _ hend ↦ hend.1
  rw [Engine.takeWon, ends_node_bind]
  intro n hn
  split
  · refine goes_forM hU fun k _ mid hmid ↦ ?_
    rw [ends_network_bind]
    split
    · exact goes_refreshFlows hmid.underway
    · exact ends_pure.2 (.refl hmid.underway)
  · exact ends_pure.2 (.refl hU)

/-- Pulling what arrives at a node leaves the network poised, or breaks off under strain. -/
theorem Poised.pull (hP : Poised s net) :
    Ends (Engine.pull key) net (Overtaxed s) fun _ ↦ Poised s :=
  (hP.goes (goes_pull hP.underway)).weaken fun _ _ hend ↦ hend.1

/-- **Other tables**, as long as the rules are found in them. -/
theorem Orderly.retable {ts : List Table} (hO : Orderly s net)
    (hts : Registry.Agrees ⟨net.directory, ts⟩ net.layout.cores) :
    Orderly s { net with tables := ts } := by
  have hsheds : Sheds net { net with tables := ts } := .of_eq hO.kin rfl rfl fun _ _ ↦ rfl
  exact ⟨hO.toLimited.congr rfl rfl, hO.exact.refile hts hO.exact.mirrored fun _ _ hw ↦
    hO.exact.link hw, hO.graded.samePlan rfl rfl rfl rfl, hsheds.kin hO.kin⟩

/-- **Other links**, as long as the pipes run along them. -/
theorem Poised.relink {t : Topology} (hP : Poised s net) (ht : t.Mirrored)
    (hlinks : ∀ fwd w, net.layout.Runs fwd w → ⟨w.outPort, w.inPort⟩ ∈ t.links) :
    Poised s { net with topology := t } := by
  have hsheds : Sheds net { net with topology := t } := .of_eq hP.kin rfl rfl fun _ _ ↦ rfl
  exact hP.step ⟨rfl, rfl⟩ (hP.exact.refile hP.exact.found ht hlinks)
    (hP.graded.samePlan rfl rfl rfl rfl) (hsheds.kin hP.kin)

theorem Poised.nodup (hP : Poised s net) : (net.nodes.map Node.key).Nodup :=
  map_key_cores net ▸ hP.exact.nodup

/-! ### Widening -/

theorem Layout.face?_enlarge {L : Layout} {bytes : Nat} :
    (L.enlarge bytes).face? key = L.face? key := by
  rw [face?, face?, core?_enlarge]
  cases L.core? key with
  | none => rfl
  | some m =>
    simp only [Option.map_some, Core.enlarge]
    cases m.kind <;> rfl

/-- Widening brings no flow. -/
theorem Network.Widens.sheds {bytes : Nat} (hw : Widens bytes net net') (hK : Kin net ∅) :
    Sheds net net' := by
  have hroster : net'.roster = net.roster := hw.tied fun _ ↦ rfl
  have hkept : ∀ {h f}, net.Holds h f → net'.Holds h (f.enlarge bytes) := fun {h f} hf ↦
    ⟨by rw [hw.flows]; exact find?_enlargeAll.2 ⟨f, hf.1, rfl⟩, hroster ▸ hf.2⟩
  have hold : ∀ {h f'}, net'.Holds h f' → ∃ f, net.Holds h f ∧ f' = f.enlarge bytes := by
    rintro h f' ⟨hf', hmem⟩
    rw [hw.flows] at hf'
    obtain ⟨f, hf, rfl⟩ := find?_enlargeAll.1 hf'
    exact ⟨f, ⟨hf, hroster ▸ hmem⟩, rfl⟩
  refine ⟨fun h hp ↦ ?_, fun h f hf ↦ .inr ⟨_, hkept hf, rfl, rfl⟩, ?_, fun key h hmem ↦ ?_,
    fun h f' hf' ↦ ?_, fun h f _ ↦ ?_⟩
  · rw [hw.flows]
    exact Arena.past_map.2 hp
  · rw [hw.flows]
    exact Arena.valid_map hK.valid
  · obtain ⟨f, hf, hnode⟩ := hK.holds (hroster ▸ hmem)
    exact ⟨f.enlarge bytes, (hkept hf).1, hnode⟩
  · obtain ⟨f, hf, rfl⟩ := hold hf'
    exact ⟨f, hf, rfl, rfl, List.Subset.refl _⟩
  · rw [hw.layout, Layout.face?_enlarge]

/-! ### Outcomes -/

/-- Unless a precondition was broken, everything is in order after the change, and it was broken off
only where the limits are too tight. -/
def Outcome.Settles (s : Settings) (o : Outcome α) : Prop :=
  Faultless o.result → Orderly s o.network ∧
    ∀ overrun, o.result = .error (.tooComplex overrun) → o.network.layout.Strains s

/-- A change of the answer does not matter. -/
theorem Outcome.Settles.map {o : Outcome α} {k : α → β} (ho : o.Settles s) :
    (o.map k).Settles s := by
  intro hfaultless
  rw [Outcome.map] at hfaultless ⊢
  cases hresult : o.result with
  | ok a => exact ⟨(ho (hresult ▸ faultless_ok)).1, by rintro overrun ⟨⟩⟩
  | error e =>
    rw [hresult] at hfaultless
    refine (ho ?_).imp_right fun hstrains ↦ ?_
    · rw [hresult]
      exact fun f hf ↦ hfaultless f (congrArg _ (Except.error.inj hf))
    · rintro overrun ⟨⟩
      exact hstrains overrun hresult

/-- Quiet steps leave everything in order, if they do not touch the limits. -/
theorem Orderly.quiet (hO : Orderly s net) (hlimited : net'.Limited s) (hq : Quiet net net') :
    Orderly s net' :=
  ⟨hlimited, hq.layout ▸ hO.exact, hq.layout ▸ hO.graded,
    (Prunes.of_quiet (d := 0) hq hO.kin).kin hO.kin⟩

namespace Network

open Outcome

theorem settles_done {a : α} (hO : Orderly s net) : Settles s (done net a) :=
  fun _ ↦ ⟨hO, by rintro overrun ⟨⟩⟩

/-- A change that is refused has done nothing, and it was not broken off. -/
theorem settles_refused {e : NetworkError} (hO : Orderly s net)
    (he : ∀ overrun, e ≠ .tooComplex overrun) : Settles s (refused net e : Outcome α) :=
  fun _ ↦ ⟨hO, fun overrun ho ↦ absurd (Except.error.inj ho) (he overrun)⟩

/-- **What is carried out starts with a fresh budget.** -/
theorem settles_carryOut {change : Engine α} (hO : Orderly s net)
    (hchange : ∀ mid, Poised s mid → Quiet net mid →
      Ends change mid (Overtaxed s) fun _ ↦ Poised s) : Settles s (net.carryOut change) := by
  intro hfaultless
  have hq : Quiet net { net with budget := net.budget.reset } := .budget net _
  have hbegin : Poised s { net with budget := net.budget.reset } :=
    ⟨hO.quiet hO.toLimited.reset hq, rfl⟩
  have hrun := hchange _ hbegin hq []
  rw [carryOut] at hfaultless ⊢
  simp only [EStateM.run] at hfaultless ⊢
  cases hout : change ⟨{ net with budget := net.budget.reset }, []⟩ with
  | ok a p =>
    rw [hout] at hrun
    exact ⟨hrun.toOrderly, by rintro overrun ⟨⟩⟩
  | error e p =>
    cases e with
    | overrun o =>
      rw [hout] at hrun
      have hq' : Quiet p.network { p.network with consistent := false } := ⟨rfl, rfl, rfl⟩
      exact ⟨hrun.toOrderly.quiet (hrun.toLimited.congr rfl rfl) hq',
        fun _ _ ↦ hrun.strains⟩
    | fault f =>
      rw [hout] at hfaultless
      exact absurd rfl (hfaultless f)

/-- The same, where the latest change is recorded first. -/
theorem settles_change {change : Engine α} {event : Event} (hO : Orderly s net)
    (hchange : ∀ mid, Poised s mid → Quiet net mid →
      Ends change mid (Overtaxed s) fun _ ↦ Poised s) :
    Settles s (net.carryOut do setEvent event; change) := by
  refine settles_carryOut hO fun mid hP hq ↦ ?_
  rw [ends_setEvent_bind]
  have hq' : Quiet mid { mid with lastEvent := some event } := ⟨rfl, rfl, rfl⟩
  exact hchange _ (hP.quiet ⟨rfl, rfl⟩ hq') (hq.trans hq')

/-! ### Tables and rules -/

theorem settles_addTable {id : TableId} {ports : List Port} (hO : Orderly s net) :
    Settles s (net.addTable id ports) := by
  rw [addTable]
  split
  · exact settles_refused hO fun _ ↦ by simp
  · split
    · exact settles_refused hO fun _ ↦ by simp
    · rename_i hnew
      have hO' := hO.retable (hO.exact.found.addTable (t := ⟨id, .ofList ports, ∅⟩) rfl
        (fun u hu he ↦ hnew (List.find?_isSome.2 ⟨u, hu, beq_iff_eq.2 he⟩)) fun u ↦
          (perm_insertTable _ net.tables).mem_iff.trans List.mem_cons)
      exact settles_done (hO'.quiet (hO'.toLimited.congr rfl rfl) ⟨rfl, rfl, rfl⟩)

/-- **The rules of a table are removed one by one**, and the records of the table go last. If a
removal is broken off, the table stays. -/
theorem settles_removeTable {id : TableId} (hO : Orderly s net) :
    Settles s (net.removeTable id) := by
  rw [removeTable]
  split
  · exact settles_refused hO fun _ ↦ by simp
  · refine settles_change hO fun mid hP hq ↦ ?_
    have hleft := hq.layout ▸ leftIn_ranking hO.exact.toWellFormed id
    refine (Ends.forM (I := fun keys mid ↦ Poised s mid ∧ mid.layout.LeftIn id keys) ⟨hP, hleft⟩
      fun key keys mid _ hmid ↦ hmid.1.removeRuleNode.weaken fun _ mid' hend ↦
        ⟨hend.1, hmid.2.step hend.2.1⟩).bind fun _ mid hend ↦ ends_update.2 ?_
    obtain ⟨hmid, hleft⟩ := hend
    exact ⟨hmid.toOrderly.retable (hmid.exact.found.dropTable hleft.none), hmid.idle⟩

/-- **The rule at a place is gone after it was removed.** -/
theorem poised_removeOld {mid : Network} {table : TableId} {index : UInt32} (hP : Poised s mid)
    (hq : Quiet net mid) :
    Ends ((net.ruleAt? table index).toList.forM removeRuleNode) mid (Overtaxed s) fun _ net' ↦
      Poised s net' ∧
      (∀ m ∈ net'.layout.cores, ∀ w, m.kind ≠ .rule table index w) ∧
      net'.tableIds = net.tableIds := by
  have hL : net.layout.WellFormed := hq.layout ▸ hP.exact.toWellFormed
  have hids : mid.tableIds = net.tableIds :=
    congrArg (fun L : Layout ↦ L.registry.tables.map Table.id) hq.layout
  cases hold : net.ruleAt? table index with
  | none => exact ends_pure.2 ⟨hP, hq.layout ▸ free_of_ruleAt? hL hold, hids⟩
  | some old =>
    obtain ⟨n, hn, rfl, w, hkind⟩ := kind_of_ruleAt? hL hold
    refine Ends.bind (k := fun _ ↦ List.forM [] _) hP.removeRuleNode
      fun _ net' ⟨hP', hcores, hids'⟩ ↦
      ends_pure.2 ⟨hP', hcores ▸ ?_, hids'.trans hids⟩
    exact free_of_filter hP.graded.toOrdered (hq.layout ▸ List.mem_map_of_mem hn) hkind

/-- **A new rule** is followed through all of its steps; each of them may be the one that is broken
off. -/
theorem settles_addRule {spec : RuleSpec} (hO : Orderly s net) : Settles s (net.addRule spec) := by
  rw [addRule]
  cases hnode : net.ruleNode spec with
  | error e => exact settles_refused hO (unbroken_ruleNode net spec e hnode).2
  | ok node =>
    obtain ⟨t, w, hfits, rfl⟩ := of_ruleNode hnode
    refine settles_change hO fun mid hP hq ↦ (poised_removeOld hP hq).bind fun _ net₁ hend ↦ ?_
    obtain ⟨hP₁, hplace, hids⟩ := hend
    refine hP₁.addNode_bind (fun _ ↦ rfl) (fun _ ↦ ⟨rfl, rfl, rfl, rfl, rfl⟩) hfits.proper
      (hfits.admits hids hplace) fun key net₂ hP₂ _ hi ↦ ?_
    refine .steady_bind (steady_relate key) fun _ net₃ hrelate ↦ ?_
    obtain ⟨hP₃, hreranked⟩ := hP₂.relate hrelate hi.lost hi.won
    obtain ⟨I, lost, won, hlayout⟩ := hreranked.layout
    refine .steady_bind (tame_connect key).steady fun _ net₄ hconnect ↦ ?_
    obtain ⟨hP₄, -⟩ := hP₃.connect hconnect (by rw [hlayout]; exact hi.next)
      (by rw [hlayout]; exact hi.prev)
    exact hP₄.takeWon.bind fun _ _ hP₅ ↦ hP₅.pull.bind fun _ _ hP₆ ↦ ends_pure.2 hP₆

/-- A change of a node that must be of a certain type is refused, or the node is there. -/
theorem settles_expect {id : NodeId} {type : NodeType} {expected : ExpectedRole}
    {k : Node → Outcome α} (hO : Orderly s net)
    (hk : ∀ m ∈ net.nodes, m.type = type → Settles s (k m)) :
    Settles s (match net.expect id type expected with
      | .error e => .refused net e
      | .ok m => k m) := by
  cases hm : net.expect id type expected with
  | error e =>
    exact settles_refused hO (unbroken_expect hO.exact.toWellFormed id type expected e hm).2
  | ok m =>
    obtain ⟨hmem, htype⟩ := of_expect hm
    exact hk m hmem htype

theorem settles_removeRule {id : NodeId} (hO : Orderly s net) : Settles s (net.removeRule id) :=
  settles_expect hO fun _ _ _ ↦ settles_change hO fun _ hP _ ↦
    hP.removeRuleNode.weaken fun _ _ hend ↦ hend.1

/-! ### Links -/

theorem settles_addLink {l : Link} (hO : Orderly s net) : Settles s (net.addLink l) := by
  rw [addLink]
  split
  · exact settles_done hO
  · rename_i hnew
    refine settles_change hO fun mid hP hq ↦ ?_
    have hfresh : l ∉ mid.topology.links := by
      rw [show mid.topology = net.topology from congrArg Layout.topology hq.layout]
      exact mt Topology.mem_links.1 (mt List.contains_iff_mem.2 hnew)
    have hlinked : ∀ fwd w, mid.layout.Runs fwd w → ⟨w.outPort, w.inPort⟩ ∈ mid.topology.links :=
      fun _ _ hw ↦ hP.exact.link hw
    rw [ends_update_bind]
    refine (hP.relink (hP.exact.mirrored.join hfresh) fun fwd w hw ↦
      Topology.mem_links_join.2 (.inl (hlinked fwd w hw))).connectLink ?_ fun fwd w hw hal ↦ ?_
    · exact Topology.mem_links_join.2 (.inr rfl)
    · refine hfresh ?_
      have hmem := hlinked fwd w hw
      rwa [hal.1, hal.2] at hmem

theorem settles_removeLink {l : Link} (hO : Orderly s net) : Settles s (net.removeLink l) := by
  rw [removeLink]
  split
  · exact settles_refused hO fun _ ↦ by simp
  · refine settles_change hO fun mid hP _ ↦ ?_
    refine .steady_bind (tame_disconnectLink l).steady fun _ mid' hdisconnect ↦ ?_
    obtain ⟨hP', -, hnone⟩ := hP.disconnectLink hdisconnect
    refine ends_update.2 (hP'.relink hP'.exact.mirrored.cut fun fwd w hw ↦ ?_)
    have hne : (⟨w.outPort, w.inPort⟩ : Link) ≠ l := by
      rintro rfl
      exact hnone fwd w hw ⟨rfl, rfl⟩
    have hlinks : (mid'.topology.cut l).links = mid'.topology.links.filter (· ≠ l) :=
      hP'.exact.mirrored.links_cut
    exact hlinks ▸ List.mem_filter.2 ⟨hP'.exact.link hw, by simpa using hne⟩

/-! ### Sources and probes -/

/-- **A new source** is connected before it has a root, so that no flow is sent while pipes are
missing. -/
theorem settles_addSource {space : Space} {ports : List Port} (hO : Orderly s net) :
    Settles s (net.addSource space ports) := by
  rw [addSource]
  split
  · exact settles_refused hO fun _ ↦ by simp
  split
  · exact settles_refused hO fun _ ↦ by simp
  · have hO' : ∀ id, Orderly s { net with nextId := id } := fun _ ↦
      hO.quiet (hO.toLimited.congr rfl rfl) ⟨rfl, rfl, rfl⟩
    refine settles_change (hO' _) fun mid hP _ ↦ hP.addNode_bind (fun _ ↦ rfl)
      (fun _ ↦ ⟨rfl, rfl, rfl, rfl, rfl⟩) (fun _ ↦ ⟨rfl, rfl, fun x ↦ Pattern.matches_allWild _ x⟩)
      (fun _ ↦ Registry.admits_of_plain (by rintro ⟨_, _, _, ⟨⟩⟩)) fun key net₁ hP₁ hn hi ↦ ?_
    refine .steady_bind (tame_connect key).steady fun _ net₂ hconnect ↦ ?_
    obtain ⟨hP₂, hrewired⟩ := hP₁.connect hconnect hi.next hi.prev
    obtain ⟨n, hn₂, hsame⟩ :=
      exists_nodeAt? (hrewired.plan.core?.trans (Layout.core?_of_nodeAt? hn))
    have hrole : n.role = .source := role_of_kind (congrArg Core.kind hsame)
    rw [ends_insertFlow_bind]
    refine .steady_bind (tame_alterNode _ (by exact fun _ ↦ rfl)).steady fun _ net₃ hlist ↦ ?_
    obtain ⟨-, rfl⟩ := leads_alterNode.1 hlist
    exact (hP₂.arriveRoot hn₂ hrole).bind fun _ _ hP₄ ↦ ends_pure.2 hP₄

theorem settles_removeSource {id : NodeId} (hO : Orderly s net) : Settles s (net.removeSource id) :=
  settles_expect hO fun _ hmem htype ↦ settles_change hO fun _ hP hq ↦ by
    obtain ⟨n, hn, hplain⟩ := exists_plain hq hO.exact.toWellFormed hmem (by simp [htype])
    exact hP.removePlainNode hn hplain

theorem settles_addProbe {spec : ProbeSpec} (hO : Orderly s net) :
    Settles s (net.addProbe spec) := by
  rw [addProbe]
  split
  · rename_i e he
    exact settles_refused hO (unbroken_accepts net spec e he).2
  split
  · exact settles_refused hO fun _ ↦ by simp
  · have hO' : ∀ id, Orderly s { net with nextId := id } := fun _ ↦
      hO.quiet (hO.toLimited.congr rfl rfl) ⟨rfl, rfl, rfl⟩
    refine settles_carryOut (hO' _) fun mid hP _ ↦ hP.addNode_bind (fun _ ↦ rfl)
      (fun _ ↦ ⟨rfl, rfl, rfl, rfl, rfl⟩) (fun _ ↦ ⟨rfl, rfl⟩)
      (fun _ ↦ Registry.admits_of_plain (by rintro ⟨_, _, _, ⟨⟩⟩)) fun key net₁ hP₁ _ hi ↦ ?_
    refine .steady_bind (tame_connect key).steady fun _ net₂ hconnect ↦ ?_
    obtain ⟨hP₂, -⟩ := hP₁.connect hconnect hi.next hi.prev
    refine hP₂.pull.bind fun _ net₃ hP₃ ↦ ?_
    refine .steady_bind (steady_startProbe key) fun _ net₄ hstart ↦ ?_
    exact ends_pure.2 (hP₃.quiet ((steady_startProbe key).budget hstart)
      (quiet_startProbe hstart hP₃.nodup))

theorem settles_removeProbe {id : NodeId} (hO : Orderly s net) : Settles s (net.removeProbe id) :=
  settles_expect hO fun n hmem htype ↦ settles_carryOut hO fun mid hP hq ↦
    .steady_bind (steady_stopProbe n.key) fun _ mid' hstop ↦ by
      have hquiet := quiet_stopProbe hstop hP.nodup
      obtain ⟨n', hn', hplain⟩ := exists_plain (hq.trans hquiet) hO.exact.toWellFormed hmem
        (by simp [htype])
      exact (hP.quiet ((steady_stopProbe n.key).budget hstop) hquiet).removePlainNode hn' hplain

theorem settles_restartProbe {id : NodeId} (hO : Orderly s net) : Settles s (net.restartProbe id) :=
  settles_expect hO fun n _ _ ↦ settles_carryOut hO fun mid hP _ ↦
    .steady_bind (steady_stopProbe n.key) fun _ mid' hstop ↦ by
      have hP' := hP.quiet ((steady_stopProbe n.key).budget hstop) (quiet_stopProbe hstop hP.nodup)
      exact (steady_startProbe n.key).ends fun _ net' hstart ↦
        hP'.quiet ((steady_startProbe n.key).budget hstart) (quiet_startProbe hstart hP'.nodup)

/-! ### All changes -/

/-- Widening is not carried out step by step, so there is nothing to break off. -/
theorem settles_expand {bytes : Nat} (hO : Orderly s net) : Settles s (net.expand bytes) := by
  rw [expand]
  split
  · exact settles_done hO
  · refine settles_done ?_
    have hw : Widens bytes net { net with
        bytes := bytes
        nodes := net.nodes.map (Node.enlarge bytes)
        pipes := net.pipes.map fun _ p ↦ { p with pattern := p.pattern.enlarge bytes }
        influences := net.influences.map fun _ i ↦ { i with common := i.common.enlarge bytes }
        flows := net.flows.map fun _ f ↦ enlargeFlow bytes f
        lastEvent := some { kind := .expand, first := bytes } } :=
      ⟨rfl, rfl, rfl, rfl, rfl, rfl, rfl, rfl⟩
    exact ⟨hO.toLimited.congr rfl rfl, hw.layout ▸ hO.exact.enlarge,
      hw.layout ▸ hO.graded.enlarge, (hw.sheds hO.kin).kin hO.kin⟩

theorem settles_audit {table : Option TableId} (hO : Orderly s net) :
    Settles s (net.audit table) := by
  refine fun _ ↦ ⟨audit_network ▸ hO, fun overrun ho ↦ ?_⟩
  unfold audit at ho
  dsimp only at ho
  split at ho
  · rename_i e he
    obtain rfl := Except.error.inj ho
    cases table with
    | none => cases he
    | some t =>
      dsimp only at he
      split_ifs at he
      cases he
  · split at ho <;> cases ho

/-- **After every change everything is in order, and it is broken off only where the limits are too
tight.** -/
theorem settles_apply (hO : Orderly s net) (m : Mutation) : Settles s (net.apply m) := by
  cases m with
  | addTable id ports => exact (settles_addTable hO).map
  | removeTable id => exact (settles_removeTable hO).map
  | addRule spec => exact (settles_addRule hO).map
  | removeRule id => exact (settles_removeRule hO).map
  | addLink l => exact (settles_addLink hO).map
  | removeLink l => exact (settles_removeLink hO).map
  | addSource space ports => exact (settles_addSource hO).map
  | addSourcePattern p ports => exact (settles_addSource hO).map
  | removeSource id => exact (settles_removeSource hO).map
  | addProbe spec => exact (settles_addProbe hO).map
  | removeProbe id => exact (settles_removeProbe hO).map
  | restartProbe id => exact (settles_restartProbe hO).map
  | expand bytes => exact (settles_expand hO).map
  | audit table => exact (settles_audit hO).map

/-- A network that changes led to. Each may have been carried out, refused or broken off, but none
broke a precondition. -/
inductive Attained : Network → Prop
  | new (bytes : Nat) (settings : Settings) (clock : Clock := .still) :
    Attained (.new bytes settings clock)
  | apply {net : Network} (m : Mutation) :
    Attained net → Faultless (net.apply m).result → Attained (net.apply m).network

/-- A new network is in order, because there is nothing in it. -/
theorem new_orderly (bytes : Nat) (s : Settings) (clock : Clock) :
    Orderly s (.new bytes s clock) where
  settings := rfl
  maxDepth := rfl
  maxVisits := rfl
  untimed hs := ⟨by simp [new, Budget.new, Settings.timeout?, hs], rfl⟩
  exact := { (new_atRest bytes s clock).inv.layout with
    prevOnce := fun _ ↦ List.nodup_nil
    listed := fun h a ha ↦ absurd ha (Arena.find?_empty_ne h a)
    tuned := by rintro key fwd ⟨⟩
    unique := by rintro fwd fwd' w w' ⟨a, b, ha, -⟩; exact absurd ha (Arena.find?_empty_ne fwd a) }
  graded := { (new_atRest bytes s clock).ordered with
    lostOnce := fun _ ↦ List.nodup_nil
    wonOnce := fun _ ↦ List.nodup_nil
    ranks := fun k i hi ↦ absurd hi (Arena.find?_empty_ne k i)
    unique := fun k _ i _ hi ↦ absurd hi (Arena.find?_empty_ne k i) }
  kin := ⟨Arena.valid_empty, by rintro key h ⟨⟩,
    fun h f p hf ↦ absurd hf.1 (Arena.find?_empty_ne h f),
    fun h f c hf ↦ absurd hf.1 (Arena.find?_empty_ne h f),
    fun h f n hf ↦ absurd hf.1 (Arena.find?_empty_ne h f),
    fun h f place hf ↦ absurd hf.1 (Arena.find?_empty_ne h f),
    fun h f hf ↦ absurd hf.1 (Arena.find?_empty_ne h f)⟩

/-- **In every network that can be attained everything is in order.** -/
theorem Attained.orderly (ha : Attained net) : Orderly net.settings net := by
  induction ha with
  | new bytes settings clock => exact new_orderly bytes settings clock
  | apply m _ hfaultless ih =>
    obtain ⟨hO, -⟩ := settles_apply ih m hfaultless
    exact hO.settings ▸ hO

/-- Changes that are given what they may be given break no precondition. -/
theorem Arises.attained (ha : Arises net) : Attained net := by
  induction ha with
  | new bytes settings clock => exact .new bytes settings clock
  | @apply net m ha hm ih =>
    by_cases hid : net.Identifies m
    · exact .apply m ih (apply_stands ha.stands hm hid).2
    · exact (apply_of_exhausted hid).1.symm ▸ ih

/-- Changes that come to their end break no precondition. -/
theorem Reached.attained {spaces : NodeKey → Option Space} (hr : Reached net spaces) :
    Attained net := by
  induction hr with
  | new bytes settings clock => exact .new bytes settings clock
  | apply m _ hok ih => exact .apply m ih (hok ▸ faultless_ok)

end Network

end HeaderFlow
