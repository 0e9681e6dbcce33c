import HeaderFlow.Proofs.Network.Mutation

/-!
# The tree of flows of a source

Where a flow is, what it came from, what came from it, by which pipe and from which source are all
stored, in the flow, in other flows and in the node, and different steps of a change update them.
**In a network that is reached they agree** (`Reached.genealogy`): the flows of a source form a
tree, whose edges are pipes, and the nodes list each flow once.

Nothing is shown about changes here. Every part is read off the invariant of a network at rest,
where no flow is an orphan and none owes anything.

## What two flows may have in common

The tree is not determined by pipes: two flows may come down one pipe from one flow, which happens
when a flow comes back to a rule that is still being connected. Nothing is wrong with their headers
(`Reached.input_iff_of_pipe`), and a network in which it happens is `twins_crossing`.
-/

namespace HeaderFlow

/-- Going up from a flow ends at the root. -/
inductive Arena.Ascends (F : Arena Flow) : Handle → Handle → Prop
  | root {h : Handle} {f : Flow} : F.find? h = some f → f.parent = none → F.Ascends h h
  | up {h p r : Handle} {f : Flow} :
    F.find? h = some f → f.parent = some p → F.Ascends p r → F.Ascends h r

namespace Network

/-- Flows, pipes and nodes agree about how flows came to where they are. -/
structure Genealogy (net : Network) : Prop where
  /-- A flow is listed at its node, once. -/
  listed : ∀ h f, net.flows.find? h = some f →
    ∃ n, net.nodeAt? f.node = some n ∧ n.flows.count h = 1
  /-- Nothing else is listed at a node. -/
  present : ∀ n ∈ net.nodes, ∀ h ∈ n.flows, ∃ f, net.flows.find? h = some f ∧ f.node = n.key
  /-- A flow is listed with the flow it came from, once. -/
  begotten : ∀ h f p, net.flows.find? h = some f → f.parent = some p →
    ∃ g, net.flows.find? p = some g ∧ g.children.count h = 1
  /-- Nothing else is listed with a flow. -/
  begets : ∀ h f c, net.flows.find? h = some f → c ∈ f.children →
    ∃ g, net.flows.find? c = some g ∧ g.parent = some h
  /-- Going up from a flow ends at what it has for its source, which is the root of a source. -/
  rooted : ∀ h f, net.flows.find? h = some f → net.flows.Ascends h f.source ∧
    ∃ r n, net.flows.find? f.source = some r ∧ r.parent = none ∧
      net.nodeAt? r.node = some n ∧ n.role = .source
  /-- The pipe of a flow leads from the node of the flow it came from to its own, where it ends at
  the port by which the flow came in. -/
  piped : ∀ c g h f, net.flows.find? c = some g → g.parent = some h → net.flows.find? h = some f →
    ∃ fwd a b n, g.pipe = some fwd ∧ net.pipes.find? fwd = some a ∧ a.node = f.node ∧
      net.nodeAt? f.node = some n ∧ fwd ∈ n.next ∧ net.pipes.find? a.reverse = some b ∧
      b.node = g.node ∧ b.port = g.port
  /-- Nothing leaves a rule by the port by which it came in. -/
  onward : ∀ c g h f n r fwd a, net.flows.find? c = some g → g.parent = some h →
    net.flows.find? h = some f → net.nodeAt? f.node = some n → n.role = .rule r →
    g.pipe = some fwd → net.pipes.find? fwd = some a → a.port ≠ f.port
  /-- Nothing comes from a flow without headers. -/
  barren : ∀ h f, net.flows.find? h = some f → f.processed = none → f.children = []
  /-- A flow that has come back to a rule goes no further. -/
  looped : ∀ h f, net.flows.find? h = some f → f.looped = true →
    f.processed = none ∧ f.children = []

end Network

variable {net : Network} {L : Layout} {F : Arena Flow} {O : Set Handle} {D : Set Debt}
  {h c : Handle} {f g : Flow}

/-- From every flow one comes up to the root that it names as its source, by induction on its
depth. -/
theorem Forest.ascends (hF : Forest L F O) (hf : F.find? h = some f) : F.Ascends h f.source := by
  obtain ⟨d, hd⟩ := hF.depth h f hf
  induction hd generalizing f with
  | root hf' hp =>
    obtain rfl := Option.some.inj (hf.symm.trans hf')
    rw [(hF.root _ f hf hp).1]
    exact .root hf hp
  | step hf' hp hd ih =>
    obtain rfl := Option.some.inj (hf.symm.trans hf')
    obtain ⟨k, hk⟩ := hF.parent_live hf hp
    rw [(hF.came _ f _ k hf hp hk).1]
    exact .up hf hp (ih hk)

/-- A node of a kind without parameters has the role. -/
theorem Network.source_of_core? {key : NodeKey} {m : Core} (hm : net.layout.core? key = some m)
    (hkind : m.kind = .source) : ∃ n, net.nodeAt? key = some n ∧ n.role = .source := by
  rw [Layout.core?_layout, Option.map_eq_some_iff] at hm
  obtain ⟨n, hn, rfl⟩ := hm
  exact ⟨n, hn, Engine.role_of_kind hkind⟩

/-- **What has children has headers**, unless they owe it. -/
theorem Inv.children_eq_nil (hI : Inv net ∅ ∅) (hf : net.flows.find? h = some f)
    (hp : f.processed = none) : f.children = [] := by
  refine List.eq_nil_iff_forall_not_mem.2 fun c hc ↦ ?_
  obtain ⟨g, hg, hparent⟩ := hI.forest.children h f c hf hc
  obtain ⟨-, fwd, w, hpipe, hw, -⟩ := hI.forest.came c g h f hg hparent hf
  exact (hI.sound.passes c g h f fwd w hg hparent hf hpipe hw).alive (Set.notMem_empty _) hp

namespace Network

/-- **Without orphans and debts everything agrees.** -/
theorem genealogy_of_inv (hI : Inv net ∅ ∅) : net.Genealogy where
  listed h f hf := by
    obtain ⟨m, hm⟩ := hI.core hf
    rw [Layout.core?_layout, Option.map_eq_some_iff] at hm
    obtain ⟨n, hn, -⟩ := hm
    have hroster : net.roster f.node = n.flows := tied_of_nodeAt? hn
    refine ⟨n, hn, List.count_eq_one_of_mem (hroster ▸ hI.listed.nodup f.node) ?_⟩
    exact hroster ▸ hI.listed.all h f hf (Set.notMem_empty h)
  present n hn h hh := by
    have hn' := nodeAt?_of_mem (map_key_cores net ▸ hI.layout.nodup) hn
    exact hI.listed.only n.key h (show h ∈ net.tied Node.flows n.key from tied_of_nodeAt? hn' ▸ hh)
  begotten h f p hf hp := by
    obtain ⟨g, hg⟩ := hI.forest.parent_live hf hp
    exact ⟨g, hg, List.count_eq_one_of_mem (hI.forest.nodup p g hg)
      (hI.forest.listed h f p g hf (Set.notMem_empty h) hp hg)⟩
  begets h f c hf hc := hI.forest.children h f c hf hc
  rooted h f hf := by
    obtain ⟨r, hr, hroot⟩ := hI.forest.rooted hf
    obtain ⟨-, -, m, hm, hkind⟩ := hI.forest.root _ r hr hroot
    obtain ⟨n, hn, hrole⟩ := source_of_core? hm hkind
    exact ⟨hI.forest.ascends hf, r, n, hr, hroot, hn, hrole⟩
  piped c g h f hg hp hf := by
    obtain ⟨-, fwd, w, hpipe, hw, hsender, hreceiver, hport⟩ := hI.forest.came c g h f hg hp hf
    obtain ⟨a, b, ha, hb, hmem, rfl⟩ := hw
    obtain ⟨m, hm⟩ := hI.core hf
    rw [Layout.core?_layout, Option.map_eq_some_iff] at hm
    obtain ⟨n, hn, -⟩ := hm
    refine ⟨fwd, a, b, n, hpipe, ha, hsender, hn, ?_, hb, hreceiver, hport⟩
    rwa [show a.node = f.node from hsender,
      show net.layout.next f.node = n.next from tied_of_nodeAt? hn] at hmem
  onward c g h f n r fwd a hg hp hf hn hrole hpipe ha := by
    obtain ⟨-, fwd', w, hpipe', hw, -⟩ := hI.forest.came c g h f hg hp hf
    obtain rfl := Option.some.inj (hpipe.symm.trans hpipe')
    rcases hI.forest.leaves c g h f fwd w hg hp hf hpipe hw with hroot | hne
    · -- a root is at a source
      obtain ⟨-, -, m, hm, hkind⟩ := hI.forest.root h f hf hroot
      obtain rfl := Option.some.inj (hm.symm.trans (Layout.core?_of_nodeAt? hn))
      simp [Node.core, Role.kind, hrole] at hkind
    · obtain ⟨a', b, ha', -, -, rfl⟩ := hw
      obtain rfl := Option.some.inj (ha.symm.trans ha')
      exact hne
  barren h f hf hp := hI.children_eq_nil hf hp
  looped h f hf hl := by
    have hp := (hI.sound.fits h f hf).looped hl
    exact ⟨hp, hI.children_eq_nil hf hp⟩

/-- **The flows of every network that is reached form trees**, one for each source. -/
theorem Reached.genealogy {spaces : NodeKey → Option Space} (hr : Reached net spaces) :
    net.Genealogy :=
  genealogy_of_inv hr.atRest.1.inv

/-- A source before a table whose only rule sends headers back to the table by another port. -/
def circle : Network × (NodeKey → Option Space) :=
  (replay [.addTable 1 [11, 12, 13], .addLink ⟨1, 11⟩, .addLink ⟨12, 13⟩,
    .addRule { table := 1, index := 1, inPorts := [], outPorts := [12], accepts := .allWild 1 },
    .addSourcePattern (.allWild 1) [1]] (.new 1 .default, fun _ ↦ none)).get (by decide +kernel)

/-- The tree of the source has the flow that comes back to the rule. -/
theorem genealogy_circle : (∃ h : Handle, (circle.1.flows.find? h).any Flow.looped = true) ∧
    circle.1.Genealogy := by
  have hreached : Reached circle.1 circle.2 :=
    (Reached.new 1 .default).replay (Option.some_get _).symm
  exact ⟨⟨⟨2, 0⟩, by decide +kernel⟩, hreached.genealogy⟩

/-- **Flows that came down one pipe from one flow are at one place and have the same headers.** -/
theorem Reached.input_iff_of_pipe {spaces : NodeKey → Option Space} {c' : Handle} {g' : Flow}
    (hr : Reached net spaces) (hg : net.flows.find? c = some g) (hg' : net.flows.find? c' = some g')
    (hparent : g.parent = some h) (hparent' : g'.parent = some h) (hpipe : g.pipe = g'.pipe) :
    g'.node = g.node ∧ g'.port = g.port ∧ ∀ x, g'.input.Contains x ↔ g.input.Contains x := by
  have hI := hr.atRest.1.inv
  obtain ⟨f, hf⟩ := hI.forest.parent_live hg hparent
  obtain ⟨-, fwd, w, hfwd, hw, -, hreceiver, hport⟩ := hI.forest.came c g h f hg hparent hf
  obtain ⟨-, fwd', w', hfwd', hw', -, hreceiver', hport'⟩ :=
    hI.forest.came c' g' h f hg' hparent' hf
  obtain rfl : fwd = fwd' := Option.some.inj (hfwd.symm.trans (hpipe.trans hfwd'))
  obtain rfl := hw.unique hw'
  have hpasses := hI.sound.passes c g h f fwd w hg hparent hf hfwd hw
  have hpasses' := hI.sound.passes c' g' h f fwd w hg' hparent' hf hfwd' hw
  refine ⟨hreceiver'.symm.trans hreceiver, hport'.symm.trans hport, fun x ↦ ?_⟩
  exact (hpasses'.input_iff x).trans (hpasses.input_iff x).symm

/-- The second rule sends headers back to a table whose rule is added last, and is linked to. -/
def crossing : Network × (NodeKey → Option Space) :=
  (replay [.addTable 1 [11, 12, 13], .addTable 2 [21, 22, 23], .addLink ⟨1, 11⟩, .addLink ⟨12, 22⟩,
    .addLink ⟨21, 12⟩, .addSourcePattern (.allWild 1) [1],
    .addRule {
      table := 2, index := 1, inPorts := [22, 21], outPorts := [23, 22, 21]
      accepts := (Pattern.allWild 1).put 2 .one },
    .addRule {
      table := 1, index := 2, inPorts := [], outPorts := [13, 12]
      accepts := (Pattern.allWild 1).put 0 .zero }] (.new 1 .default, fun _ ↦ none)).get
    (by decide +kernel)

/-- There can be two such flows: while the last rule takes in what its first pipe brings, a flow
comes back to it by its second one, and is sent there once more afterwards. -/
theorem twins_crossing : ∃ c c' p fwd : Handle, c ≠ c' ∧
    (crossing.1.flows.find? c).map (fun g ↦ (g.parent, g.pipe)) = some (some p, some fwd) ∧
    (crossing.1.flows.find? c').map (fun g ↦ (g.parent, g.pipe)) = some (some p, some fwd) :=
  ⟨⟨3, 0⟩, ⟨4, 0⟩, ⟨2, 0⟩, ⟨4, 0⟩, by decide, by decide +kernel, by decide +kernel⟩

end Network

end HeaderFlow
