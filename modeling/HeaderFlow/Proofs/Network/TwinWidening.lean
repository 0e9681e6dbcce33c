import HeaderFlow.Proofs.Network.TwinChanges

/-!
# Widening twin networks

Widening changes what stands for what, and does so at once for all headers in a network. A `Recast`
says what becomes of patterns, masks and spaces; a network that need not be widened is left as it is
by one. **If what stood for each other still does when recast, twins stay twins.**

A network is recast part by part, from patterns to whole networks. Both that headers are widened and
that they stay as they are is a case of this (`Recast.enlarge`, `Recast.same`), so there is
one lemma for each part and not one for each case. Which of the two it is depends on the length that
headers have (`Recast.upTo`), and it can differ for the two networks: the second one may have long
enough headers already, while those of the first still have to grow (`AtRest.expand`).

Handles, places and names have nothing to do with headers, so the naming stays as it is, and only
the comparison changes.
-/

namespace HeaderFlow

variable {n m n' m' : Nat} {T : Comparison n m} {T' : Comparison n' m'} {ν : Naming}
  {net net' : Network} {bytes bytes' : Nat}

/-- Nothing in an arena is changed. -/
theorem Arena.map_same {α : Type} (a : Arena α) : (a.map fun _ v ↦ v) = a := by
  have hslot : ∀ s : Slot α, ({ s with value := s.value.map fun v ↦ v } : Slot α) = s := fun s ↦ by
    obtain ⟨age, value⟩ := s
    cases value <;> rfl
  obtain ⟨slots, free, size⟩ := a
  rw [Arena.map]
  refine congrArg (Arena.mk · free size) (Array.ext (by simp) fun i hi hi' ↦ ?_)
  rw [Array.getElem_mapIdx]
  exact hslot _

/-! ### What becomes of headers -/

/-- What becomes of the headers in a network. -/
structure Recast where
  pattern : Pattern → Pattern
  /-- What becomes of the positions that a rule overwrites. -/
  mask : Pattern → Pattern
  space : Space → Space

namespace Recast

/-- Headers are widened. -/
def enlarge (bytes : Nat) : Recast :=
  ⟨fun p ↦ p.enlarge bytes, fun p ↦ p.enlargeWith bytes .zero, fun s ↦ s.enlarge bytes⟩

/-- Headers stay as they are. -/
def same : Recast := ⟨id, id, id⟩

/-- What widening to `k` bytes does where headers have `bytes` bytes. -/
def upTo (bytes k : Nat) : Recast := if k ≤ bytes then same else enlarge k

end Recast

/-- Recasts the spaces in a condition. -/
def Condition.recast (u : Space → Space) : Condition → Condition
  | .and a b => .and (a.recast u) (b.recast u)
  | .or a b => .or (a.recast u) (b.recast u)
  | .not a => .not (a.recast u)
  | .header s => .header (u s)
  | c => c

/-- A condition is widened by widening its spaces. -/
theorem Condition.recast_enlarge (q : Condition) :
    q.recast (fun s ↦ s.enlarge bytes) = q.enlarge bytes := by
  induction q with
  | and a b iha ihb => rw [recast, enlarge, iha, ihb]
  | or a b iha ihb => rw [recast, enlarge, iha, ihb]
  | not a ih => rw [recast, enlarge, ih]
  | _ => rfl

/-- A condition whose spaces stay stays. -/
theorem Condition.recast_id (q : Condition) : q.recast id = q := by
  induction q with
  | and a b iha ihb => rw [recast, iha, ihb]
  | or a b iha ihb => rw [recast, iha, ihb]
  | not a ih => rw [recast, ih]
  | _ => rfl

/-- Conditions that are alike still are if their spaces are. -/
theorem Condition.Alike.recast {S S' : Space → Space → Prop} {u u' : Space → Space}
    {q q' : Condition} (hq : q.Alike S q') (hS : ∀ s s', S s s' → S' (u s) (u' s')) :
    (q.recast u).Alike S' (q'.recast u') := by
  induction hq with
  | always => exact .always
  | never => exact .never
  | and _ _ iha ihb => exact .and iha ihb
  | or _ _ iha ihb => exact .or iha ihb
  | not _ ih => exact .not ih
  | header hs => exact .header (hS _ _ hs)
  | path ps => exact .path ps

namespace Recast

variable (c c' : Recast)

/-- Recasts what a probe asks for. -/
def probe (p : Probe) : Probe :=
  { p with filter := p.filter.recast c.space, test := p.test.recast c.space }

/-- Recasts what a rule overwrites and what a probe asks for. -/
def role : Role → Role
  | .rule r =>
    .rule { r with overwrite := r.overwrite.map fun w ↦ ⟨c.mask w.mask, c.pattern w.value⟩ }
  | .source => .source
  | .probe p => .probe (c.probe p)

/-- Recasts what a node accepts and sends. -/
def node (k : Node) : Node :=
  { k with
    accepts := k.accepts.map c.pattern
    sends := c.pattern k.sends
    role := c.role k.role }

/-- Recasts the headers of a flow. -/
def flow (f : Flow) : Flow :=
  { f with input := c.space f.input, processed := f.processed.map c.space }

/-- Recasts what a pipe lets through. -/
def pipe (p : Pipe) : Pipe := { p with pattern := c.pattern p.pattern }

/-- Recasts what an earlier rule takes from a later one. -/
def influence (i : Influence) : Influence := { i with common := c.pattern i.common }

/-- Recasts all headers of a network, which then have another length. -/
def network (bytes : Nat) (net : Network) : Network :=
  { net with
    bytes := bytes
    nodes := net.nodes.map c.node
    pipes := net.pipes.map fun _ ↦ c.pipe
    influences := net.influences.map fun _ ↦ c.influence
    flows := net.flows.map fun _ ↦ c.flow }

/-- Widening a node is a case of recasting it. -/
theorem node_enlarge (k : Node) : (enlarge bytes).node k = k.enlarge bytes := by
  rw [node, Node.enlarge, role.eq_def]
  cases k.role with
  | rule r => rfl
  | source => rfl
  | probe p => simp only [probe, Probe.enlarge, enlarge, Condition.recast_enlarge]

/-- Nothing at a node is recast. -/
theorem node_same (k : Node) : same.node k = k := by
  obtain ⟨key, id, role, accepts, sends, inPorts, outPorts, inputLayer, outputLayer, next, prev,
    flows⟩ := k
  have hrole : same.role role = role := by
    cases role with
    | rule r =>
      obtain ⟨table, index, overwrite, influencedBy, effectOn⟩ := r
      cases overwrite <;> rfl
    | source => rfl
    | probe p =>
      obtain ⟨mode, state, filter, test, results, deciding⟩ := p
      simp only [Recast.role, probe, same, Condition.recast_id]
  cases accepts <;> simp only [node, hrole] <;> rfl

end Recast

/-- Nothing of a flow is recast. -/
theorem Recast.flow_same (f : Flow) : same.flow f = f := by
  rw [flow, same, Option.map_id]
  rfl

/-- Widening recasts everything, or nothing if headers are long enough. -/
theorem Network.expand_eq (net : Network) (k : Nat) :
    net.expand k = .done { (Recast.upTo net.bytes k).network (max net.bytes k) net with
      lastEvent := if k ≤ net.bytes then net.lastEvent else some { kind := .expand, first := k } }
      (max net.bytes k) := by
  rw [Network.expand]
  split
  · rename_i hle
    have hnodes : net.nodes.map Recast.same.node = net.nodes := by
      rw [show Recast.same.node = id from funext Recast.node_same, List.map_id]
    have hpipes : net.pipes.map (fun _ ↦ Recast.same.pipe) = net.pipes := Arena.map_same _
    have hinfluences : net.influences.map (fun _ ↦ Recast.same.influence) = net.influences :=
      Arena.map_same _
    have hflows : net.flows.map (fun _ ↦ Recast.same.flow) = net.flows := by
      rw [show Recast.same.flow = id from funext Recast.flow_same]
      exact Arena.map_same _
    rw [Recast.upTo, if_pos hle, Recast.network, hnodes, hpipes, hinfluences, hflows,
      Nat.max_eq_left hle]
  · rename_i hle
    rw [Recast.upTo, if_neg hle, Recast.network, Nat.max_eq_right (by omega),
      show (Recast.enlarge k).node = Node.enlarge k from funext Recast.node_enlarge]
    rfl

/-! ### Recast twins -/

namespace Comparison

/-- What stands for each other does so when recast. -/
structure Recasts (T : Comparison n m) (T' : Comparison n' m') (c c' : Recast) : Prop where
  exact : T'.exact ↔ T.exact
  timing : T'.timing = T.timing
  events : T'.events → T.events
  rename : T'.rename = T.rename
  placed : T'.placed = T.placed
  source : T'.source = T.source
  owner : T'.owner = T.owner
  gone : T'.gone = T.gone
  pattern : ∀ p p', T.pattern p p' → T'.pattern (c.pattern p) (c'.pattern p')
  mask : ∀ p p', T.mask p p' → T'.mask (c.mask p) (c'.mask p')
  space : ∀ s s', T.space s s' → T'.space (c.space s) (c'.space s')
  asked : ∀ s s', T.asked s s' → T'.asked (c.space s) (c'.space s')

namespace Recasts

variable {c c' : Recast} (hc : T.Recasts T' c c')

include hc

/-- Rules that go with each other are recast alike. -/
theorem rules {r r' : Rule} (hr : T.Rules r r') :
    T'.Rules { r with overwrite := r.overwrite.map fun w ↦ ⟨c.mask w.mask, c.pattern w.value⟩ }
      { r' with overwrite := r'.overwrite.map fun w ↦ ⟨c'.mask w.mask, c'.pattern w.value⟩ } :=
  { table := hr.table
    index := hr.index
    influencedBy := hr.influencedBy
    effectOn := hr.effectOn
    overwrite := optionRel_map hr.overwrite fun _ _ hw ↦ ⟨hc.mask _ _ hw.1, hc.pattern _ _ hw.2⟩ }

/-- Probes that go with each other are recast alike. -/
theorem probes {p p' : Probe} (hp : T.Probes ν p p') : T'.Probes ν (c.probe p) (c'.probe p') :=
  { mode := hp.mode
    state := hp.state
    filter := hp.filter.recast hc.asked
    test := hp.test.recast hc.asked
    results := hp.results
    counted := hp.counted
    deciding := fun he ↦ hp.deciding (hc.exact.1 he) }

/-- What nodes are stays alike. -/
theorem roles {r r' : Role} (hr : T.Roles ν r r') : T'.Roles ν (c.role r) (c'.role r') := by
  cases hr with
  | rule hr => exact .rule (hc.rules hr)
  | source => exact .source
  | probe hp => exact .probe (hc.probes hp)

/-- What nodes are called stays as it is. -/
theorem called {r : Role} {key : NodeKey} {id id' : NodeId} (h : T.Called r key id id') :
    T'.Called (c.role r) key id id' := by
  cases h with
  | rule hplaced => exact .rule (hc.placed ▸ hplaced)
  | source hstays howner hsource =>
    rw [← hc.rename]
    exact .source (hc.gone ▸ hstays) (hc.owner ▸ howner) (hc.source ▸ hsource)
  | probe hstays howner =>
    rw [← hc.rename]
    exact .probe (hc.gone ▸ hstays) (hc.owner ▸ howner)

/-- What is told apart at one length is told apart at the other. -/
theorem discerns (hd : T'.Discerns) : T.Discerns := fun _ _ _ _ _ _ _ h h' ↦
  hd _ _ _ _ _ _ _ (hc.called h) (hc.called h')

/-- Nodes that go with each other are recast alike. -/
theorem nodes {k k' : Node} (hk : T.Nodes ν k k') : T'.Nodes ν (c.node k) (c'.node k') :=
  { key := hk.key
    called := hc.called hk.called
    role := hc.roles hk.role
    accepts := optionRel_map hk.accepts hc.pattern
    sends := hc.pattern _ _ hk.sends
    inPorts := hk.inPorts
    outPorts := hk.outPorts
    inputLayer := hk.inputLayer
    outputLayer := hk.outputLayer
    next := hk.next
    prev := hk.prev
    flows := hk.flows }

/-- A lost source stays lost. -/
theorem lostNode {k : Node} (hk : T.LostNode ν k) : T'.LostNode ν (c.node k) :=
  { key := hk.key
    gone := by rw [hc.gone]; exact hk.gone
    role := by rw [Recast.node, hk.role]; rfl
    accepts := by rw [Recast.node, hk.accepts]; rfl
    inPorts := hk.inPorts
    next := hk.next
    prev := hk.prev
    flows := hk.flows }

/-- Pipes that go with each other are recast alike. -/
theorem pipes {p p' : Pipe} (hp : T.Pipes ν p p') : T'.Pipes ν (c.pipe p) (c'.pipe p') :=
  ⟨hp.node, hp.port, hc.pattern _ _ hp.pattern, hp.reverse⟩

/-- Influences that go with each other are recast alike. -/
theorem influences {i i' : Influence} (hi : T.Influences ν i i') :
    T'.Influences ν (c.influence i) (c'.influence i') :=
  ⟨hi.influencer, hi.influenced, hc.pattern _ _ hi.common, hi.ports⟩

/-- Flows that go with each other are recast alike. -/
theorem flows {f f' : Flow} (hf : T.Flows ν f f') : T'.Flows ν (c.flow f) (c'.flow f') :=
  { node := hf.node
    source := hf.source
    input := hc.space _ _ hf.input
    processed := optionRel_map hf.processed hc.space
    port := hf.port
    pipe := hf.pipe
    parent := hf.parent
    children := hf.children
    looped := hf.looped }

/-- **Twins stay twins when they are recast.** -/
theorem twins (hT : T.Twins ν net net') : T'.Twins ν (c.network n' net) (c'.network m' net') :=
  have hnames : ∀ (c : Recast) (ks : List Node),
      (ks.map c.node).map Node.name = ks.map Node.name := fun c ks ↦ by
    rw [List.map_map]
    rfl
  -- Recasting leaves names alone, so whatever is about names only is as it was.
  { bytes := rfl
    bytes' := rfl
    settings := hT.settings
    tables := hT.tables
    unrenamed := by
      rw [Recast.network, Recast.network, hnames, hnames]
      exact hT.unrenamed
    topology := hT.topology
    directory := hT.directory
    ids := by
      rw [Recast.network, hnames]
      exact hT.ids
    ids' := by
      rw [Recast.network, hnames]
      exact hT.ids'
    reaches := fun hd ↦ by
      rw [Recast.network, Recast.network, hnames, hnames]
      exact hT.reaches (hc.discerns hd)
    registry := fun he ↦ hT.registry (hc.exact.1 he)
    nextId := by rw [hc.rename]; exact hT.nextId
    consistent := hT.consistent
    events := fun he ↦ hT.events (hc.events he)
    budget := { hT.budget with
      same := fun he ↦ hT.budget.same (hc.exact.1 he)
      time := hc.timing ▸ hT.budget.time }
    nodes := hT.nodes.map (fun _ _ ↦ hc.nodes) fun _ ↦ hc.lostNode
    nodup := by
      have hkeys : (net.nodes.map c.node).map Node.key = net.nodes.map Node.key := by
        rw [List.map_map]
        rfl
      exact hkeys ▸ hT.nodup
    keys := hT.keys
    keys' := hT.keys'
    injective := hT.injective
    sameKeys := fun he ↦ hT.sameKeys (hc.exact.1 he)
    pipes := by
      have hpipes : Arena.Pairs T.exact ν.pipe (T'.Pipes ν) (LostPipe ν)
          (net.pipes.map fun _ ↦ c.pipe) (net'.pipes.map fun _ ↦ c'.pipe) :=
        hT.pipes.map (fun _ _ _ _ ↦ hc.pipes) fun _ side v hv ↦ by cases side <;> exact hv
      exact { hpipes with same := fun he ↦ hpipes.same (hc.exact.1 he) }
    influences := hT.influences.map fun _ _ _ ↦ hc.influences
    flows := by
      have hflows : Arena.Pairs T.exact ν.flow (T'.Flows ν) (fun _ ↦ LostFlow ν)
          (net.flows.map fun _ ↦ c.flow) (net'.flows.map fun _ ↦ c'.flow) :=
        hT.flows.map (fun _ _ _ _ ↦ hc.flows) fun _ _ v hv ↦
          { node := hv.node, source := hv.source, parent := hv.parent, children := hv.children,
            root := hv.root }
      exact { hflows with same := fun he ↦ hflows.same (hc.exact.1 he) }
    ranked := hT.ranked.imp fun rank hrank h f hf ↦ by
      rw [Recast.network, Arena.find?_map] at hf
      obtain ⟨g, hg, rfl⟩ := Option.map_eq_some_iff.1 hf
      exact hrank h g hg }

end Recasts

/-- **Widening is tracked by widening**, which need not have anything to do in either network. -/
theorem AtRest.expand {k k' : Nat} (hT : T.AtRest ν net net') (hn : n' = max n k)
    (hm : m' = max m k') (hc : T.Recasts T' (.upTo n k) (.upTo m k'))
    (hevents : T'.events → n = m ∧ k = k') :
    T'.AtRest ν (net.expand k).network (net'.expand k').network := by
  subst hn hm
  have hbytes : net.bytes = n := hT.bytes
  have hbytes' : net'.bytes = m := hT.bytes'
  have htwins := hc.twins hT.toTwins
  rw [Network.expand_eq, Network.expand_eq, hbytes, hbytes']
  exact { htwins with
    events := fun he ↦ by
      have hsame : net'.lastEvent = net.lastEvent := htwins.events he
      obtain ⟨rfl, rfl⟩ := hevents he
      simp only [Outcome.done, hsame]
    spent := fun he ↦ hT.spent (hc.exact.1 he)
    timed := hc.timing ▸ hT.timed }

end Comparison

end HeaderFlow
