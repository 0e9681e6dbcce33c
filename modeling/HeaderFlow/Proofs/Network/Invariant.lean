import HeaderFlow.Proofs.Network.Engine
import HeaderFlow.Proofs.Network.Ledger

/-!
# The invariant of networks

`Inv` puts together what holds of a network between any two steps of propagation: its layout is well
formed, its flows are a forest and are sound up to their debts, and each is listed at its node. The
orphans of the forest may be missing from these lists.

`Frame` says what a computation leaves alone. Reports, probes and the budget are seen by neither, so
steps that touch nothing else are *quiet* and need no further argument.

## Specifications of propagation

A function of propagation is specified by what it pays and what it may disturb. If it is started
with the debts `D` and those that it pays, it ends with `D`, and `Frame d` says that the layout is
the same and that flows nearer to a source than `d` are what they were. So a loop over handles that
were read earlier can go on: `inv_forM_pay` is the loop rule, which asks of the body that it pays
for one member, and of the debts that they survive the other visits.

## Changes in place

Most steps replace the headers of one flow. `Inv.withFlow` reduces them to the soundness of that
flow, and `Inv.setProcessed` and `Inv.setInput` say what has to be accounted for: what the flow sent
before, or the flow itself.
-/

namespace HeaderFlow

open Region

variable {net net' net'' : Network} {O O' : Set Handle} {D D' : Set Debt} {d e : Nat} {h : Handle}
  {f f' : Flow} {key : NodeKey}

/-- The flows that are listed at each node. -/
def Network.roster (net : Network) : NodeKey → List Handle := net.tied Node.flows

/-- Nodes list exactly the flows that are there, and each only once, up to the orphans. -/
structure Listed (net : Network) (O : Set Handle) : Prop where
  all : ∀ h f, net.flows.find? h = some f → h ∉ O → h ∈ net.roster f.node
  only : ∀ key, ∀ h ∈ net.roster key, ∃ f, net.flows.find? h = some f ∧ f.node = key
  nodup : ∀ key, (net.roster key).Nodup

/-- Being listed depends on flows and lists only. -/
theorem Listed.congr (hl : Listed net O) (hflows : net'.flows = net.flows)
    (hroster : net'.roster = net.roster) : Listed net' O := by
  obtain ⟨hall, honly, hnodup⟩ := hl
  rw [← hflows, ← hroster] at hall honly
  exact ⟨hall, honly, hroster ▸ hnodup⟩

/-- What holds of a network between any two steps of propagation. -/
structure Inv (net : Network) (O : Set Handle) (D : Set Debt) : Prop where
  layout : net.layout.WellFormed
  valid : net.flows.Valid
  listed : Listed net O
  forest : Forest net.layout net.flows O
  sound : Sound net.layout net.flows D

/-- What a computation at a flow of depth `d` leaves alone. -/
structure Frame (d : Nat) (net net' : Network) : Prop where
  layout : net'.layout = net.layout
  stable : Stable net.flows net'.flows
  spares : Spares d net.flows net'.flows

namespace Frame

/-- Doing nothing leaves everything alone. -/
theorem refl (d : Nat) (net : Network) : Frame d net net := ⟨rfl, .refl _, .refl d _⟩

/-- Two computations leave alone what both do. -/
theorem trans (h₁ : Frame d net net') (h₂ : Frame d net' net'') : Frame d net net'' :=
  ⟨h₂.layout.trans h₁.layout, h₁.stable.trans h₂.stable, h₁.spares.trans h₂.spares⟩

/-- What leaves more flows alone leaves fewer alone. -/
theorem mono (hF : Frame d net net') (hle : e ≤ d) : Frame e net net' :=
  ⟨hF.layout, hF.stable, hF.spares.mono hle⟩

/-- Roots are nearer to a source than anything that came from them, so they are left alone. -/
theorem sameRoots {K : NodeKey → Prop} (hF : Frame 1 net net') :
    SameRoots K net.flows net'.flows :=
  .of_spares hF.stable hF.spares

end Frame

namespace Inv

/-- More may be owed. -/
theorem mono (hI : Inv net O D) (hD : D ⊆ D') : Inv net O D' :=
  { hI with sound := hI.sound.mono hD }

theorem core (hI : Inv net O D) (hf : net.flows.find? h = some f) :
    ∃ n, net.layout.core? f.node = some n :=
  hI.forest.core hI.layout hf

/-- The node of a flow is there. -/
theorem node (hI : Inv net O D) (hf : net.flows.find? h = some f) :
    ∃ n, net.nodeAt? f.node = some n := by
  obtain ⟨m, hm⟩ := hI.core hf
  rw [Layout.core?_layout, Option.map_eq_some_iff] at hm
  obtain ⟨n, hn, -⟩ := hm
  exact ⟨n, hn⟩

/-- What is said about flows may be said anew. -/
theorem withSound (hI : Inv net O D) (hs : Sound net.layout net.flows D') : Inv net O D' :=
  { hI with sound := hs }

/-- Orphans that do not live are none. -/
theorem strengthen (hI : Inv net O D) (hO : ∀ h ∈ O, (∃ f, net.flows.find? h = some f) → h ∈ O') :
    Inv net O' D :=
  { hI with
    listed := { hI.listed with
      all := fun h f hf hh ↦ hI.listed.all h f hf fun hmem ↦ hh (hO h hmem ⟨f, hf⟩) }
    forest := hI.forest.strengthen hO }

/-- Nodes still list a flow that changes in place. -/
theorem listed_of_replaces {k : Flow → Flow}
    (hr : Replaces net.flows (net.flows.modify h k) h f f') (hl : Listed net O) :
    Listed (Engine.withFlow net h k) O := by
  refine ⟨fun g l' hl' hg ↦ ?_, fun key g hlists ↦ ?_, hl.nodup⟩
  · obtain ⟨l, hl₀, hway, -⟩ := hr.old hl'
    rw [Flow.node_eq hway]
    exact hl.all g l hl₀ hg
  · obtain ⟨l, hl₀, hnode⟩ := hl.only key g hlists
    obtain ⟨l', hl', hway, -⟩ := hr.new hl₀
    exact ⟨l', hl', (Flow.node_eq hway).trans hnode⟩

/-- **A change of the headers of a flow keeps the invariant** if the flow is sound afterwards. -/
theorem withFlow {k : Flow → Flow} (hI : Inv net O D) (hf : net.flows.find? h = some f)
    (hway : (k f).way = f.way) (hchildren : (k f).children = f.children)
    (hlooped : (k f).looped = f.looped)
    (hs : ∀ F', Replaces net.flows F' h f (k f) → Sound net.layout F' D') :
    Inv (Engine.withFlow net h k) O D' := by
  have hr := Replaces.modify (k := k) hf hway
  exact ⟨hI.layout, Arena.valid_modify hI.valid, listed_of_replaces hr hI.listed,
    hr.forest_of_eq hI.forest hchildren hlooped, hs _ hr⟩

/-- A change of what hangs on a flow leaves the headers as they are. -/
theorem withChildren {k : Flow → Flow} (hI : Inv net O D) (hO : O ⊆ O')
    (hf : net.flows.find? h = some f) (hk : f.Alike (k f))
    (hforest : ∀ F', Replaces net.flows F' h f (k f) → Forest net.layout F' O') :
    Inv (Engine.withFlow net h k) O' D := by
  have hr := Replaces.modify (k := k) hf hk.way
  have hlisted := listed_of_replaces hr hI.listed
  exact ⟨hI.layout, Arena.valid_modify hI.valid,
    { hlisted with all := fun g l hl hg ↦ hlisted.all g l hl fun hmem ↦ hg (hO hmem) },
    hforest _ hr, hr.sound_of_alike hI.sound hk⟩

/-- Every flow has a depth. -/
theorem depth (hI : Inv net O D) (hf : net.flows.find? h = some f) : ∃ d, Depth net.flows h d :=
  hI.forest.depth h f hf

/-- No flow came from itself. -/
theorem parent_ne_self (hI : Inv net O D) (hf : net.flows.find? h = some f) :
    f.parent ≠ some h := by
  intro hp
  obtain ⟨d, hd⟩ := hI.depth hf
  obtain ⟨e, rfl, he⟩ := hd.parent hf hp
  have := he.unique hd
  omega

/-- The spaces of a flow that came from another are no higher than those of its root. -/
theorem height (hI : Inv net O D) (hf : net.flows.find? h = some f) {r : Flow}
    (hr : net.flows.find? f.source = some r) (hroot : r.parent = none) :
    heightList f.input.regions ≤ max 2 (heightList r.input.regions) ∧
      ∀ s, f.processed = some s → heightList s.regions ≤ max 2 (heightList r.input.regions) :=
  (hI.sound.shaped h f hf).height r hr hroot

/-- **What leaves a flow may be replaced**, whereupon what it sent before has to be accounted
for. -/
theorem setProcessed {processed : Option Space} {k : Flow → Flow} (hI : Inv net O D)
    (hf : net.flows.find? h = some f) (hk : k f = { f with processed := processed })
    (hroot : f.parent ≠ none)
    (hD : ∀ d ∈ D, d ≠ .stale h → (∀ x, d ≠ .excess h x) → (∀ fwd, d ≠ .pending h fwd) → d ∈ D')
    (hfits : Fits net.layout D' h { f with processed := processed })
    (hout : ∀ c g fwd w, net.flows.find? c = some g → g.parent = some h → g.pipe = some fwd →
      net.layout.Runs fwd w → Passes D' w c g { f with processed := processed })
    (hsent : Sent net.layout net.flows D' h { f with processed := processed })
    (htrim : net.layout.overwrite? f.node = none →
      ∀ s, processed = some s → ∃ n, s.Trim n ∧ s.Normalized)
    (hheight : ∀ s, processed = some s → ∀ r, net.flows.find? f.source = some r →
      r.parent = none → heightList s.regions ≤ max 2 (heightList r.input.regions)) :
    Inv (Engine.withFlow net h k) O D' := by
  refine hI.withFlow hf (hk ▸ rfl) (hk ▸ rfl) (hk ▸ rfl) fun F' hr ↦ ?_
  rw [hk] at hr
  have hshaped := hI.sound.shaped h f hf
  refine hr.sound hI.sound hroot (fun d hmem hne ↦ hD d hmem ?_ ?_ ?_) hfits
    (fun p k fwd w hp hk hpipe hw ↦ ?_) (fun c g fwd w hc _ ↦ hout c g fwd w hc) hsent
    ⟨hshaped.input, fun _ ↦ htrim, fun r hr hrp ↦ ⟨(hshaped.height r hr hrp).1, fun s hs ↦
      hheight s hs r hr hrp⟩⟩ (hI.parent_ne_self hf)
  · rintro rfl
    exact hne rfl
  · rintro x rfl
    exact hne rfl
  · rintro fwd rfl
    exact hne rfl
  · have hold := hI.sound.passes h f p k fwd w hf hp hk hpipe hw
    exact (hold.mono (fun hmem ↦ hD _ hmem (by simp) (by simp) (by simp))
      fun _ hmem ↦ hD _ hmem (by simp) (by simp) (by simp)).congr rfl rfl

/-- **What arrived at a flow may be replaced**, whereupon the flow itself has to be accounted
for. -/
theorem setInput {input : Space} {p : Handle} (hI : Inv net O D) (hf : net.flows.find? h = some f)
    (hparent : f.parent = some p)
    (hD : ∀ d ∈ D, d ≠ .stale h → (∀ x, d ≠ .excess h x) → d ≠ .loose h →
      (∀ x, d ≠ .surplus h x) → d ∈ D')
    (hfits : Fits net.layout D' h { f with input := input })
    (hin : ∀ k fwd w, net.flows.find? p = some k → f.pipe = some fwd → net.layout.Runs fwd w →
      Passes D' w h { f with input := input } k)
    (htrim : ∃ n, input.Trim n)
    (hheight : ∀ r, net.flows.find? f.source = some r → r.parent = none →
      heightList input.regions ≤ max 2 (heightList r.input.regions)) :
    Inv (Engine.withFlow net h fun f ↦ { f with input := input }) O D' := by
  refine hI.withFlow hf rfl rfl rfl fun F' hr ↦ ?_
  have hshaped := hI.sound.shaped h f hf
  have hroot : f.parent ≠ none := by simp [hparent]
  have hD' : ∀ d ∈ D, d.flow ≠ h → d ∈ D' := by
    intro d hmem hne
    refine hD d hmem ?_ ?_ ?_ ?_
    · rintro rfl
      exact hne rfl
    · rintro x rfl
      exact hne rfl
    · rintro rfl
      exact hne rfl
    · rintro x rfl
      exact hne rfl
  refine hr.sound hI.sound hroot hD' hfits (fun q k fwd w hq hk hpipe hw ↦ ?_)
    (fun c g fwd w hc hch hp hpipe hw ↦ ?_) ?_ ⟨fun _ ↦ htrim, hshaped.processed, fun r hr hrp ↦
      ⟨hheight r hr hrp, (hshaped.height r hr hrp).2⟩⟩ (hI.parent_ne_self hf)
  · rw [hparent] at hq
    obtain rfl := Option.some.inj hq
    exact hin k fwd w hk hpipe hw
  · have hold := hI.sound.passes c g h f fwd w hc hp hf hpipe hw
    exact (hold.mono (fun hmem ↦ hD' _ hmem hch) fun _ hmem ↦ hD' _ hmem hch).congr rfl rfl
  · refine Sent.mono (D := D) (fun fwd w hw hn hl hp ↦ hI.sound.sent h f hf fwd w hw hn hl hp) ?_
    exact fun fwd hmem ↦ hD _ hmem (by simp) (by simp) (by simp) (by simp)

end Inv

/-- Changing a flow but not its way. -/
theorem frame_withFlow {k : Flow → Flow} (hk : ∀ f, (k f).way = f.way)
    (hd : Depth net.flows h d) : Frame d net (Engine.withFlow net h k) :=
  ⟨rfl, .modify hk, .modify hd⟩

/-- Changing what hangs on a flow leaves all headers alone. -/
theorem frame_withChildren {k : Flow → Flow} (hk : ∀ f : Flow, f.Alike (k f)) :
    Frame d net (Engine.withFlow net h k) :=
  ⟨rfl, .modify fun f ↦ (hk f).way, .modify_children hk⟩

/-! ### Quiet steps -/

/-- The networks differ at most in what neither flows nor layout depend on. -/
structure Quiet (net net' : Network) : Prop where
  layout : net'.layout = net.layout
  flows : net'.flows = net.flows
  roster : net'.roster = net.roster

namespace Quiet

theorem refl (net : Network) : Quiet net net := ⟨rfl, rfl, rfl⟩

theorem trans (h₁ : Quiet net net') (h₂ : Quiet net' net'') : Quiet net net'' :=
  ⟨h₂.layout.trans h₁.layout, h₂.flows.trans h₁.flows, h₂.roster.trans h₁.roster⟩

theorem inv (hq : Quiet net net') (hI : Inv net O D) : Inv net' O D := by
  refine ⟨?_, ?_, hI.listed.congr hq.flows hq.roster, ?_, ?_⟩
  · rw [hq.layout]
    exact hI.layout
  · rw [hq.flows]
    exact hI.valid
  · rw [hq.layout, hq.flows]
    exact hI.forest
  · rw [hq.layout, hq.flows]
    exact hI.sound

theorem frame (hq : Quiet net net') (d : Nat) : Frame d net net' :=
  ⟨hq.layout, hq.flows ▸ .refl _, hq.flows ▸ .refl d _⟩

/-- The budget is of no account. -/
theorem budget (net : Network) (b : Budget) : Quiet net { net with budget := b } := ⟨rfl, rfl, rfl⟩

end Quiet

/-- The keys of the nodes are those of the layout. -/
theorem map_key_cores (net : Network) :
    net.layout.cores.map Core.key = net.nodes.map Node.key := by
  rw [Network.layout, List.map_map]
  rfl

theorem Quiet.nodup (hq : Quiet net net') (hnodup : (net.nodes.map Node.key).Nodup) :
    (net'.nodes.map Node.key).Nodup := by
  rwa [← map_key_cores, hq.layout, map_key_cores]

/-- A node is found in the layout by its key. -/
theorem core?_core {n : Node} (hnodup : (net.layout.cores.map Core.key).Nodup)
    (hn : n ∈ net.nodes) : net.layout.core? n.key = some n.core :=
  Layout.core?_of_mem (n := n.core) hnodup (List.mem_map_of_mem hn)

theorem Node.type_eq_source_iff {n : Node} : n.type = .source ↔ n.core.kind = .source := by
  cases hrole : n.role <;> simp [Node.type, Node.core, Role.kind, hrole]

namespace Engine

theorem role_of_kind {n : Node} (hkind : n.core.kind = .source) : n.role = .source := by
  cases hr : n.role <;> simp [Node.core, Role.kind, hr] at hkind ⊢

/-- A node that is found is there, and has the key. -/
theorem nodeAt?_eq_some (hn : net.nodeAt? key = some n) : n ∈ net.nodes ∧ n.key = key :=
  ⟨List.mem_of_find?_eq_some hn, by simpa using List.find?_some hn⟩

/-- Finding nodes after one of them was changed. -/
theorem nodeAt?_withNode {k : Node → Node} {key' : NodeKey}
    (hk : ∀ n ∈ net.nodes, n.key = key → (k n).key = key) :
    (withNode net key k).nodeAt? key' =
      (net.nodeAt? key').map fun n ↦ if key' = key then k n else n := by
  simp only [Network.nodeAt?]
  generalize net.nodes = ns at hk
  induction ns with
  | nil => rfl
  | cons n ns ih =>
    have ih' := ih fun m hm ↦ hk m (List.mem_cons_of_mem _ hm)
    simp only [List.map_cons, List.find?_cons]
    by_cases hn : n.key = key
    · have hkn := hk n List.mem_cons_self hn
      by_cases hkey : key = key'
      · simp [hn, hkn, hkey]
      · simp only [hn, hkn, beq_self_eq_true, if_true, beq_eq_false_iff_ne.2 hkey, ih']
    · simp only [beq_eq_false_iff_ne.2 hn, Bool.false_eq_true, if_false]
      by_cases hkey : n.key = key'
      · simp [hkey, show key' ≠ key from hkey ▸ hn]
      · simp only [beq_eq_false_iff_ne.2 hkey, ih']

/-- What a node lists after one of them was changed. -/
theorem tied_withNode {k : Node → Node} {list : Node → List Handle} {key' : NodeKey}
    (hk : ∀ n ∈ net.nodes, n.key = key → (k n).key = key) :
    (withNode net key k).tied list key' =
      if key' = key then (net.nodeAt? key).elim [] fun n ↦ list (k n) else net.tied list key' := by
  rw [Network.tied, nodeAt?_withNode hk]
  split
  · rename_i hkey
    subst hkey
    cases net.nodeAt? key' <;> simp
  · cases hn : net.nodeAt? key' <;> simp [Network.tied, hn]

/-- Lists that a change of nodes leaves alone. -/
theorem tied_withNode_of_eq {k : Node → Node} {list : Node → List Handle}
    (hk : ∀ n ∈ net.nodes, n.key = key → (k n).key = key ∧ list (k n) = list n) :
    (withNode net key k).tied list = net.tied list := by
  funext key'
  rw [tied_withNode fun n hn hkey ↦ (hk n hn hkey).1]
  split
  · rename_i hkey
    subst hkey
    cases hn : net.nodeAt? key' with
    | none => simp [Network.tied, hn]
    | some n =>
      obtain ⟨hmem, hkey⟩ := nodeAt?_eq_some hn
      simp [Network.tied, hn, (hk n hmem hkey).2]
  · rfl

/-- The cores stay if that of the changed node does. -/
theorem cores_withNode {k : Node → Node}
    (hk : ∀ n ∈ net.nodes, n.key = key → (k n).core = n.core) :
    (withNode net key k).layout.cores = net.layout.cores := by
  simp only [Network.layout, List.map_map]
  refine List.map_congr_left fun n hn ↦ ?_
  simp only [Function.comp_apply]
  split
  · rename_i hkey
    exact hk n hn (beq_iff_eq.1 hkey)
  · rfl

/-- The changed node means the same to the layout. -/
structure SameTies (n m : Node) : Prop where
  core : m.core = n.core
  next : m.next = n.next
  prev : m.prev = n.prev
  lost : m.lost = n.lost
  won : m.won = n.won

/-- A change of one node that keeps its core changes at most the lists of the layout. -/
theorem layout_withNode_eq {k : Node → Node}
    (hk : ∀ n ∈ net.nodes, n.key = key → (k n).core = n.core) :
    (withNode net key k).layout = { net.layout with
      next := (withNode net key k).tied Node.next
      prev := (withNode net key k).tied Node.prev
      lost := (withNode net key k).tied Node.lost
      won := (withNode net key k).tied Node.won } := by
  have hcores := cores_withNode hk
  simp only [Network.layout] at hcores ⊢
  rw [hcores]
  rfl

/-- **A change of a node that ties it to the same things leaves the layout alone.** -/
theorem layout_withNode {k : Node → Node}
    (hk : ∀ n ∈ net.nodes, n.key = key → SameTies n (k n)) :
    (withNode net key k).layout = net.layout := by
  have hkey : ∀ n ∈ net.nodes, n.key = key → (k n).key = key := fun n hn hnk ↦
    (congrArg Core.key (hk n hn hnk).core).trans hnk
  rw [layout_withNode_eq fun n hn hnk ↦ (hk n hn hnk).core,
    tied_withNode_of_eq fun n hn hnk ↦ ⟨hkey n hn hnk, (hk n hn hnk).next⟩,
    tied_withNode_of_eq fun n hn hnk ↦ ⟨hkey n hn hnk, (hk n hn hnk).prev⟩,
    tied_withNode_of_eq fun n hn hnk ↦ ⟨hkey n hn hnk, (hk n hn hnk).lost⟩,
    tied_withNode_of_eq fun n hn hnk ↦ ⟨hkey n hn hnk, (hk n hn hnk).won⟩]
  rfl

/-- With distinct keys, a node is the only one with its key. -/
theorem eq_of_key_eq (hnodup : (net.nodes.map Node.key).Nodup) {n m : Node} (hn : n ∈ net.nodes)
    (hm : m ∈ net.nodes) (hkey : n.key = m.key) : n = m :=
  List.inj_on_of_nodup_map hnodup hn hm hkey

/-- What a probe remembers is of no account. -/
theorem quiet_setProbe {n : Node} {p q : Probe} (hnodup : (net.nodes.map Node.key).Nodup)
    (hn : net.nodeAt? key = some n) (hp : n.probe? = some p) :
    Quiet net (withNode net key fun n ↦ { n with role := .probe q }) := by
  obtain ⟨hmem, hkey⟩ := nodeAt?_eq_some hn
  have hprobe : ∀ m ∈ net.nodes, m.key = key → SameTies m { m with role := .probe q } := by
    intro m hm hmkey
    obtain rfl := eq_of_key_eq hnodup hm hmem (hmkey.trans hkey.symm)
    cases hrole : m.role with
    | probe q => constructor <;> simp [Node.core, Role.kind, Node.lost, Node.won, Node.rule?, hrole]
    | rule r => simp [Node.probe?, hrole] at hp
    | source => simp [Node.probe?, hrole] at hp
  exact ⟨layout_withNode hprobe, rfl, tied_withNode_of_eq fun _ _ hkey ↦ ⟨hkey, rfl⟩⟩

/-- All that telling a probe can change is what the probe remembers. Nothing is told to a probe that
does not run. -/
theorem Leads.notify {change : Network → Checked FlowChange} {flow : Handle}
    (hl : Leads (notify key flow change) net () net') :
    (net' = net ∧ ∀ n p, net.nodeAt? key = some n → n.probe? = some p → p.isRunning = false) ∨
      ∃ n p c q t, net.nodeAt? key = some n ∧ n.probe? = some p ∧ p.isRunning = true ∧
        change net = .ok c ∧ p.update flow c = .ok (q, t) ∧
        net' = withNode net key fun n ↦ { n with role := .probe q } := by
  rw [Engine.notify, leads_node_bind] at hl
  obtain ⟨n, hn, hl⟩ := hl
  split at hl
  · rename_i p hp
    rcases hl.ite with ⟨hidle, hl⟩ | ⟨hrunning, hl⟩
    · refine .inl ⟨(leads_pure.1 hl).2, fun m q hm hq ↦ ?_⟩
      obtain rfl := Option.some.inj (hn.symm.trans hm)
      obtain rfl := Option.some.inj (hp.symm.trans hq)
      simpa using hidle
    · rw [leads_ask_bind] at hl
      obtain ⟨c, hc, hl⟩ := hl
      rw [leads_check_bind] at hl
      obtain ⟨⟨q, t⟩, hq, hl⟩ := hl
      rw [leads_updateNode_bind] at hl
      refine .inr ⟨n, p, c, q, t, hn, hp, by simpa using hrunning, hc, hq, ?_⟩
      cases t with
      | none => exact (leads_pure.1 hl).2
      | some t =>
        rw [leads_event_bind, leads_report] at hl
        exact hl
  · rename_i hnone
    refine .inl ⟨(leads_pure.1 hl).2, fun m q hm hq ↦ ?_⟩
    obtain rfl := Option.some.inj (hn.symm.trans hm)
    exact absurd hq (hnone q)

/-- **Telling a probe is quiet.** -/
theorem quiet_notify {change : Network → Checked FlowChange} {flow : Handle}
    (hnodup : (net.nodes.map Node.key).Nodup) (hl : Leads (notify key flow change) net () net') :
    Quiet net net' := by
  obtain ⟨rfl, -⟩ | ⟨n, p, c, q, t, hn, hp, -, -, -, rfl⟩ := hl.notify
  · exact .refl _
  · exact quiet_setProbe hnodup hn hp

/-! ### Loops -/

/-- **A walk along a list pays what is owed for each member.** -/
theorem inv_forM_pay {α : Type} {l : List α} {body : α → Engine Unit} {d : Nat}
    (owes : Arena Flow → α → Set Debt) (hl : Leads (l.forM body) net () net')
    (hI : Inv net ∅ (D ∪ {e | ∃ a ∈ l, e ∈ owes net.flows a}))
    (hstable : ∀ {F F' a e}, Stable F F' → e ∈ owes F a → (∃ f, F'.find? e.flow = some f) →
      e ∈ owes F' a)
    (hstep : ∀ a ∈ l, ∀ mid mid' D, Frame d net mid → Leads (body a) mid () mid' →
      Inv mid ∅ (D ∪ owes mid.flows a) → Inv mid' ∅ D ∧ Frame d mid mid') :
    Inv net' ∅ D ∧ Frame d net net' := by
  suffices hrun : Inv net' ∅ (D ∪ {e | ∃ a ∈ [], e ∈ owes net'.flows a}) ∧ Frame d net net' from
    ⟨hrun.1.mono (by simp), hrun.2⟩
  refine hl.forM (I := fun rest mid ↦
    Inv mid ∅ (D ∪ {e | ∃ a ∈ rest, e ∈ owes mid.flows a}) ∧ Frame d net mid) ⟨hI, .refl _ _⟩ ?_
  rintro a rest mid mid' ha ⟨hImid, hframe⟩ hrun
  obtain ⟨hI', hframe'⟩ := hstep a ha mid mid' (D ∪ {e | ∃ a ∈ rest, e ∈ owes mid.flows a})
    hframe hrun (hImid.mono (by
      rintro e (he | ⟨b, hb, he⟩)
      · exact .inl (.inl he)
      · rcases List.mem_cons.1 hb with rfl | hb
        · exact .inr he
        · exact .inl (.inr ⟨b, hb, he⟩)))
  refine ⟨hI'.withSound (hI'.sound.void ?_), hframe.trans hframe'⟩
  rintro e (he | ⟨b, hb, he⟩) hlive
  · exact .inl he
  · exact .inr ⟨b, hb, hstable hframe'.stable he hlive⟩

end Engine

end HeaderFlow
