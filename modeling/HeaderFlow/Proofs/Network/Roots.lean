import HeaderFlow.Proofs.Network.Expand
import HeaderFlow.Proofs.Network.Membership

/-!
# The roots of sources

What a source sends is not kept with its node but in the flow at the root of its tree.
`Rooted net spaces` says that every source has exactly one root and that the root has the headers in
`spaces`, those that the source was added with. Headers are compared, not the spaces as they are
written, together with the heights that the theorems about rewriting need.

Nearly every change is a `SameSources`: it keeps `Rooted` whatever the spaces are, because it keeps
all roots but those of sources that go (`SameSources.of_sameRoots`). The one exception is a new
source.

## Nodes that come and go

* `Engine.upheld_removeRuleNode` and `Engine.upheld_removePlainNode`: a node goes with its flows,
  pipes and influences, and then nothing refers to it any more. Flows at a node to which no pipe
  leads could only be roots of a source (`Engine.free_of_prev`), which is why a rule that has been
  disconnected has none.
* `Engine.inv_insertRoot` and `Engine.inv_arriveRoot`: the root of a new source owes its pipes at
  first, and owes nothing once it has been sent down all of them.
-/

namespace HeaderFlow

open Region

variable {L : Layout} {net net' : Network} {F : Arena Flow} {D : Set Debt} {X : Set Handle}
  {E : NodeKey → NodeKey → Link → Prop} {R : NodeKey → NodeKey → Prop} {key : NodeKey} {h : Handle}

/-- Quiet steps change nothing that the invariant speaks of. -/
theorem Upheld.quiet (hU : Upheld net D X E R) (hq : Quiet net net') : Upheld net' D X E R :=
  hU.propagate (hq.inv hU.inv) hq.layout

/-- More may be left out of account. -/
theorem Upheld.mono (hU : Upheld net D X E R) {S : NodeKey → NodeKey → Link → Prop}
    {T : NodeKey → NodeKey → Prop} (hE : ∀ s r l, E s r l → S s r l) (hR : ∀ m n, R m n → T m n) :
    Upheld net D X S T :=
  { hU with wired := hU.wired.mono hE, ranked := hU.ranked.mono hR }

/-! ### Sources and their roots -/

/-- Every source has one root, and a root has the headers that its source was added with. -/
structure Rooted (net : Network) (spaces : NodeKey → Option Space) : Prop where
  root : ∀ h f, net.flows.find? h = some f → f.parent = none → ∃ s, spaces f.node = some s ∧
    (∀ x, f.input.Contains x ↔ s.Contains x) ∧ heightList f.input.regions = heightList s.regions
  source : ∀ n ∈ net.layout.cores, n.kind = .source →
    ∃ h f, net.flows.find? h = some f ∧ f.parent = none ∧ f.node = n.key
  unique : ∀ h g f k, net.flows.find? h = some f → f.parent = none → net.flows.find? g = some k →
    k.parent = none → k.node = f.node → g = h

/-- The root of a source has the headers of the source. -/
theorem Rooted.input_alike {f : Flow} {spaces : NodeKey → Option Space} {space : Space}
    (hr : Rooted net spaces) (hspace : spaces key = some space) (hf : net.flows.find? h = some f)
    (hp : f.parent = none) (hnode : f.node = key) :
    (∀ x, f.input.Contains x ↔ space.Contains x) ∧
      heightList f.input.regions = heightList space.regions := by
  obtain ⟨space', hspace', hsame⟩ := hr.root h f hf hp
  obtain rfl := Option.some.inj (hspace.symm.trans (hnode ▸ hspace'))
  exact hsame

/-- Sources that are still there have their roots. -/
def SameSources (net net' : Network) : Prop := ∀ spaces, Rooted net spaces → Rooted net' spaces

/-- **Roots are kept where the sources are.** `K` says at which nodes the roots have to be kept, so
that a source that is removed may take its root with it. -/
theorem SameSources.of_sameRoots {K : NodeKey → Prop} (hroots : SameRoots K net.flows net'.flows)
    (hcores : ∀ n ∈ net'.layout.cores, n.kind = .source → n ∈ net.layout.cores ∧ K n.key) :
    SameSources net net' := by
  intro spaces hr
  refine ⟨fun h f' hf' hp ↦ ?_, fun n hn hkind ↦ ?_, fun h g f' k' hf' hp hk' hpk hnode ↦ ?_⟩
  · obtain ⟨f, hf, cs, rfl⟩ := hroots.old h f' hf' hp
    exact hr.root h f hf hp
  · obtain ⟨hn, hK⟩ := hcores n hn hkind
    obtain ⟨h, f, hf, hp, hnode⟩ := hr.source n hn hkind
    obtain ⟨f', hf', halike⟩ := hroots.kept h f hf hp (hnode ▸ hK)
    exact ⟨h, f', hf', (Flow.parent_eq halike.way).trans hp, (Flow.node_eq halike.way).trans hnode⟩
  · obtain ⟨f, hf, cs, rfl⟩ := hroots.old h f' hf' hp
    obtain ⟨k, hk, ds, rfl⟩ := hroots.old g k' hk' hpk
    exact hr.unique h g f k hf hp hk hpk hnode

/-- With the same nodes and the same roots there is nothing to show. -/
theorem SameSources.of_eq (hroots : SameRoots (fun _ ↦ True) net.flows net'.flows)
    (hcores : net'.layout.cores = net.layout.cores) : SameSources net net' :=
  .of_sameRoots hroots fun _ hn _ ↦ ⟨hcores ▸ hn, trivial⟩

/-- Changes one after the other keep the sources if each of them does. -/
theorem SameSources.trans {net'' : Network} (h₁ : SameSources net net')
    (h₂ : SameSources net' net'') : SameSources net net'' :=
  fun spaces hr ↦ h₂ spaces (h₁ spaces hr)

/-- Quiet steps keep the sources, since they do not touch flows. -/
theorem Quiet.sameSources (hq : Quiet net net') : SameSources net net' :=
  .of_eq (.of_eq hq.flows) (hq.layout ▸ rfl)

/-- Neither the latest change nor the budget is of account. -/
theorem quiet_begin (net : Network) (e : Option Event) (b : Budget) :
    Quiet net { net with lastEvent := e, budget := b } :=
  ⟨rfl, rfl, rfl⟩

/-! ### Removing nodes -/

namespace Engine

/-- A flow at a node that no pipe leads to is the root of a source. -/
theorem free_of_prev {n : Core} (hI : Inv net ∅ D) (hn : net.layout.core? key = some n)
    (hkind : n.kind ≠ .source) (hprev : net.layout.prev key = []) (h : Handle) (f : Flow)
    (hf : net.flows.find? h = some f) : f.node ≠ key := by
  rintro rfl
  cases hp : f.parent with
  | none => exact hkind ((hI.forest.isRoot_iff hI.layout hf hn).1 hp)
  | some p =>
    obtain ⟨g, fwd, w, -, -, hw, -, hreceiver, -⟩ := hI.forest.wire hf hp
    obtain ⟨back, a, b, s, r, hj, rfl⟩ := hI.layout.joins hw
    have hmem := hj.prev
    rw [show b.node = f.node from hreceiver, hprev] at hmem
    exact absurd hmem List.not_mem_nil

/-- **A rule goes with its flows, pipes and influences.** -/
theorem upheld_removeRuleNode (hl : Leads (removeRuleNode key) net () net')
    (hU : Upheld net D ∅ E R) (hrule : ∀ n, net.layout.core? key = some n → n.IsRule) :
    Upheld net' D ∅ E R ∧ net'.layout.cores = net.layout.cores.filter (·.key ≠ key) ∧
      net'.tableIds = net.tableIds ∧ SameSources net net' := by
  obtain ⟨⟨⟩, net₁, hremove, hl⟩ := hl.bind
  obtain ⟨⟨⟩, net₂, hdisconnect, hl⟩ := hl.bind
  obtain ⟨⟨⟩, net₃, hrelease, herase⟩ := hl.bind
  -- While the node is taken apart it is exempt from having all its pipes and influences. After it
  -- has gone there is nothing left to be exempt.
  obtain ⟨hU₂, hplan, hnext, hprev, hfree, hroots⟩ := upheld_isolate hremove hdisconnect
    (hU.mono (S := fun s r l ↦ E s r l ∨ touching key s r l)
      (T := fun m n ↦ R m n ∨ involving key m n) (fun _ _ _ ↦ .inl) fun _ _ ↦ .inl)
    fun _ _ _ ↦ .inr
  obtain ⟨hU₃, hloses, hlost, hwon, hroots'⟩ :=
    upheld_release hrelease hU₂ (fun _ _ ↦ .inr) hfree
  obtain ⟨I, lost, won, hsame⟩ := hloses.same
  have hnext₃ : net₃.layout.next key = [] := by rw [hsame]; exact hnext
  have hprev₃ : net₃.layout.prev key = [] := by rw [hsame]; exact hprev
  have hcores₃ : net₃.layout.cores = net.layout.cores := by rw [hsame]; exact hplan.cores
  have hthere : ∃ n, net₃.layout.core? key = some n := by
    rw [removeFlows, leads_node_bind] at hremove
    obtain ⟨n, hn, -⟩ := hremove
    refine ⟨n.core, ?_⟩
    rw [Layout.core?, hcores₃]
    exact Layout.core?_of_nodeAt? hn
  obtain ⟨n, hn⟩ := hthere
  have hkind : n.kind ≠ .source := by
    rw [Layout.core?, hcores₃] at hn
    obtain ⟨table, index, w, hk⟩ := hrule n hn
    simp [hk]
  obtain ⟨c, hckey, hU', hlayout, hflows⟩ := upheld_eraseNode herase hU₃
    ⟨hnext₃, hprev₃, hlost, hwon⟩ (free_of_prev hU₃.inv hn hkind hprev₃)
  have hcores : net'.layout.cores = net.layout.cores.filter (·.key ≠ key) := by
    rw [hlayout, ← hcores₃, ← hckey]
    rfl
  have htables : net'.tableIds = net.tableIds := by
    have hregistry : net₃.registry = net.registry :=
      (congrArg Layout.registry hsame).trans (show net₂.layout.registry = _ from hplan.registry)
    rw [show net'.tableIds = (net₃.registry.strike c).tables.map Table.id from
      congrArg (fun L : Layout ↦ L.registry.tables.map Table.id) hlayout, Registry.map_id_strike,
      hregistry]
    rfl
  refine ⟨hU', hcores, htables, .of_sameRoots (K := (· ≠ key)) ?_ fun m hm _ ↦ ?_⟩
  · rw [hflows]
    exact hroots.trans hroots'
  · rw [hcores] at hm
    obtain ⟨hm, hne⟩ := List.mem_filter.1 hm
    exact ⟨hm, by simpa using hne⟩

/-- **A source or a probe goes with its flows and pipes.** -/
theorem upheld_removePlainNode {n : Node} (hl : Leads (removePlainNode key) net () net')
    (hU : Upheld net D ∅ E R) (hn : net.nodeAt? key = some n) (hplain : n.rule? = none) :
    Upheld net' D ∅ E R ∧ SameSources net net' := by
  obtain ⟨⟨⟩, net₁, hremove, hl⟩ := hl.bind
  obtain ⟨⟨⟩, net₂, hdisconnect, herase⟩ := hl.bind
  obtain ⟨hU₂, hplan, hnext, hprev, hfree, hroots⟩ := upheld_isolate hremove hdisconnect
    (hU.mono (S := fun s r l ↦ E s r l ∨ touching key s r l)
      (T := fun m n ↦ R m n ∨ involving key m n) (fun _ _ _ ↦ .inl) fun _ _ ↦ .inl)
    fun _ _ _ ↦ .inr
  obtain ⟨hlost, hwon⟩ := lost_won_of_plain hn hplain
  obtain ⟨c, rfl, hU', hlayout, hflows⟩ := upheld_eraseNode herase hU₂
    ⟨hnext, hprev, (congrFun hplan.lost key).trans hlost, (congrFun hplan.won key).trans hwon⟩ hfree
  refine ⟨hU', .of_sameRoots (K := (· ≠ c.key)) ?_ fun m hm _ ↦ ?_⟩
  · rw [hflows]
    exact hroots
  · rw [hlayout] at hm
    obtain ⟨hm, hne⟩ := Layout.mem_cores_shrink.1 hm
    exact ⟨hplan.cores ▸ hm, hne⟩

end Engine

/-- **A new root owes nothing but its pipes.** -/
theorem Sound.insertRoot {space : Space} {n : Core} (hs : Sound L F D) (hvalid : F.Valid)
    (hF : Forest L F ∅) (hn : L.core? key = some n) (hkind : n.kind = .source) :
    Sound L (F.insert (.root key F.nextHandle space))
      (D ∪ {e | ∃ fwd, e = .pending F.nextHandle fwd}) := by
  have hold : ∀ k l, (F.insert (.root key F.nextHandle space)).find? k = some l →
      k = F.nextHandle ∧ l = .root key F.nextHandle space ∨ k ≠ F.nextHandle ∧ F.find? k = some l :=
    fun _ _ ↦ Arena.of_find?_insert hvalid
  have hkeep : ∀ {k l}, F.find? k = some l →
      (F.insert (.root key F.nextHandle space)).find? k = some l := fun hl ↦
    Arena.find?_insert_of_some hvalid hl
  have hself : (F.insert (.root key F.nextHandle space)).find? F.nextHandle = some _ :=
    Arena.find?_insert_self hvalid
  refine ⟨fun k l hl ↦ ?_, fun c g k l fwd w hc hp hl hpipe hw ↦ ?_, fun k l hl ↦ ?_,
    fun k l hl ↦ ?_, fun k l hl hp ↦ ?_⟩
  · rcases hold k l hl with ⟨rfl, rfl⟩ | ⟨-, hl⟩
    · refine Engine.fits_of_sends_iff hn (fun ⟨table, index, w, hrule⟩ ↦ ?_) rfl fun x ↦ ?_
      · exact absurd (hkind.symm.trans hrule) (by simp)
      · simp [Flow.Sends, Flow.root]
    · exact (hs.fits k l hl).mono .inl fun _ ↦ .inl
  · rcases hold c g hc with ⟨rfl, rfl⟩ | ⟨-, hc⟩
    · exact absurd hp (by simp [Flow.root])
    · obtain ⟨l', hl'⟩ := hF.parent_live hc hp
      obtain rfl := Option.some.inj (hl.symm.trans (hkeep hl'))
      exact (hs.passes c g k l fwd w hc hp hl' hpipe hw).mono .inl fun _ ↦ .inl
  · rcases hold k l hl with ⟨rfl, rfl⟩ | ⟨-, hl⟩
    · exact .of_pending fun fwd ↦ .inr ⟨fwd, rfl⟩
    · exact ((hs.sent k l hl).mono fun _ ↦ .inl).congr fun c g hc ↦ ⟨g, hkeep hc, rfl⟩
  · rcases hold k l hl with ⟨rfl, rfl⟩ | ⟨-, hl⟩
    · refine ⟨fun hp ↦ absurd rfl hp, fun hp ↦ absurd rfl hp, fun r hr _ ↦ ?_⟩
      obtain rfl := Option.some.inj (hself.symm.trans hr)
      refine ⟨Nat.le_max_right _ _, ?_⟩
      rintro s ⟨⟩
      exact Nat.le_max_right _ _
    · obtain ⟨r, hr, hrp⟩ := hF.rooted hl
      refine (hs.shaped k l hl).congr fun r' hr' _ ↦ ⟨r, hr, hrp, ?_⟩
      rw [Option.some.inj (hr'.symm.trans (hkeep hr))]
  · rcases hold k l hl with ⟨rfl, rfl⟩ | ⟨-, hl⟩
    · exact ⟨rfl, rfl⟩
    · exact hs.source k l hl hp

namespace Engine

/-- The network with a new root for a source, listed at its node. -/
abbrev withRoot (net : Network) (key : NodeKey) (space : Space) : Network :=
  withNode { net with flows := net.flows.insert (.root key net.flows.nextHandle space) } key
    fun n ↦ { n with flows := n.flows ++ [net.flows.nextHandle] }

/-- A root is a flow, so the layout does not notice it. -/
theorem layout_withRoot (space : Space) : (withRoot net key space).layout = net.layout :=
  layout_withNode fun _ _ _ ↦ ⟨rfl, rfl, rfl, rfl, rfl⟩

/-- The node of the source, with its root listed. -/
theorem nodeAt?_withRoot {space : Space} {n : Node} (hn : net.nodeAt? key = some n) :
    (withRoot net key space).nodeAt? key =
      some { n with flows := n.flows ++ [net.flows.nextHandle] } := by
  rw [nodeAt?_withNode (by rintro m - hm; exact hm), show Network.nodeAt? { net with
    flows := net.flows.insert (.root key net.flows.nextHandle space) } key = some n from hn]
  simp

/-- **The root of a new source** owes nothing but its pipes. -/
theorem inv_insertRoot (space : Space) {n : Node} (hI : Inv net ∅ D)
    (hn : net.nodeAt? key = some n) (hrole : n.role = .source) :
    Inv (withRoot net key space) ∅ (D ∪ {e | ∃ fwd, e = .pending net.flows.nextHandle fwd}) := by
  obtain ⟨hcore, hkind⟩ := kind_of_role hn hrole
  let net₁ : Network :=
    { net with flows := net.flows.insert (.root key net.flows.nextHandle space) }
  have hself : net₁.flows.find? net.flows.nextHandle =
      some (.root key net.flows.nextHandle space) := Arena.find?_insert_self hI.valid
  have hlisted : Listed net₁ {net.flows.nextHandle} := by
    refine ⟨fun h f hf hh ↦ ?_, fun k h hh ↦ ?_, hI.listed.nodup⟩
    · rw [show net₁.flows.find? h = net.flows.find? h from Arena.find?_insert_of_ne hI.valid hh]
        at hf
      exact hI.listed.all h f hf (Set.notMem_empty h)
    · obtain ⟨f, hf, hnode⟩ := hI.listed.only k h hh
      exact ⟨f, Arena.find?_insert_of_some hI.valid hf, hnode⟩
  have hlayout : (withRoot net key space).layout = net.layout := layout_withRoot space
  have hforest := hI.forest.insert (f := .root key net.flows.nextHandle space) hI.valid rfl rfl
    (fun _ ↦ ⟨rfl, rfl, n.core, hcore, hkind⟩) (fun p hp ↦ absurd hp (by simp [Flow.root]))
    fun p _ _ _ hp ↦ absurd hp (by simp [Flow.root])
  refine ⟨hlayout ▸ hI.layout, Arena.valid_insert hI.valid,
    listed_enlist (g := .root key net.flows.nextHandle space) hlisted hself hn
      ((unlisted_insert hI rfl).roster key), ?_, ?_⟩
  · rw [hlayout]
    refine { hforest with listed := fun c g p f hc _ hp hf ↦ hforest.listed c g p f hc ?_ hp hf }
    rintro (hc' | rfl)
    · exact hc'
    · obtain rfl := Option.some.inj (hc.symm.trans hself)
      exact absurd hp (by simp [Flow.root])
  · rw [hlayout]
    exact hI.sound.insertRoot hI.valid hI.forest hcore hkind

/-- **The root of a source is sent down every pipe of its node.** -/
theorem inv_arriveRoot {n : Node} {f : Flow} (hl : Leads (arrive f.node h) net () net')
    (hI : Inv net ∅ (D ∪ {e | ∃ fwd, e = .pending h fwd})) (hf : net.flows.find? h = some f)
    (hroot : f.parent = none) (hn : net.nodeAt? f.node = some n) (hrole : n.role = .source) :
    Inv net' ∅ D ∧ Frame 1 net net' := by
  rw [arrive, leads_room_bind] at hl
  generalize net.budget.maxDepth = room at hl
  cases room with
  | zero =>
    obtain ⟨⟨⟩, mid, -, hdeep⟩ := hl.bind
    exact absurd hdeep not_leads_tooDeep
  | succ room =>
    refine inv_visit hl hI fun b mid hrun hI' ↦ ?_
    rw [takeIn, leads_node_bind] at hrun
    obtain ⟨n', hn', hrun⟩ := hrun
    obtain rfl := Option.some.inj (hn.symm.trans hn')
    rw [hrole] at hrun
    obtain ⟨hI'', hframe⟩ := inv_sendAll (arriveWithin_arrives room) hrun hI' hf (.root hf hroot)
    exact ⟨hI'', hframe⟩

end Engine

end HeaderFlow
